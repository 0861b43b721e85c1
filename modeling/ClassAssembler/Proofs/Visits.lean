import ClassAssembler.Proofs.ClassReading
import ClassAssembler.Proofs.ClassRun
import ClassAssembler.Proofs.PoolSharing

/-!
# Visits to a class

A class is built by visits in any order: to its header and tables, to its fields, methods and
annotations, and to the code of its methods.  All visits but those that add a member or the header
leave alone what the class and its members say about themselves (`ClassBody.Tended`).
-/

namespace ClassAssembler

open PoolM

set_option synthInstance.maxSize 400

open Buffer Format

/-! ## Visits -/

/-- A visit to a class under construction or to a part of it. -/
inductive Visit where
  | header (version access : Int) (name signature super : Text) (interfaces : List Text)
  | source (file debug : Text)
  | outerClass (owner name desc : Text)
  | innerClass (name outer inner : Text) (access : Int)
  | field (access : Int) (name desc signature : Text) (value : Value)
  | method (access : Int) (name desc signature : Text) (exceptions : List Text)
  | annotation (e : Element) (desc : Text) (isVisible : Bool)
  | typeAnnotation (e : Element) (ref : Int) (path : Option TypePath) (desc : Text)
      (isVisible : Bool)
  | parameterAnnotation (m : MethodId) (i : Int) (desc : Text) (isVisible : Bool)
  | default (m : MethodId)
  | element (id : AnnotationId) (name : Text) (value : Value)
  | enumConstant (id : AnnotationId) (name desc value : Text)
  | nested (id : AnnotationId) (name desc : Text)
  | array (id : AnnotationId) (name : Text)
  | finishAnnotation (id : AnnotationId)
  | attach (e : Element) (a : RawAttribute) (ofCode : Bool)
  | finish (e : Element)
  | parameter (m : MethodId) (name : Text) (access : Int)
  | beginCode (m : MethodId)
  | code (m : MethodId) (event : CodeEvent LabelId)
  | newLabel
  | register (r : Registration)

namespace Visit

def run : Visit → ClassM Unit
  | header version access name signature super interfaces =>
    ClassM.header version access name signature super interfaces
  | source file debug => ClassM.source file debug
  | outerClass owner name desc => ClassM.outerClass owner name desc
  | innerClass name outer inner access => ClassM.innerClass name outer inner access
  | field access name desc signature value =>
    discard <| ClassM.newField access name desc signature value
  | method access name desc signature exceptions =>
    discard <| ClassM.newMethod access name desc signature exceptions
  | annotation e desc isVisible => discard <| ClassM.newAnnotationOn e desc isVisible
  | typeAnnotation e ref path desc isVisible =>
    discard <| ClassM.newTypeAnnotationOn e ref path desc isVisible
  | parameterAnnotation m i desc isVisible =>
    discard <| ClassM.newParameterAnnotation m i desc isVisible
  | default m => discard <| ClassM.newDefaultOf m
  | element id name value => ClassM.onAnnotations (AnnotationM.element id name value)
  | enumConstant id name desc value =>
    ClassM.onAnnotations (AnnotationM.enumConstant id name desc value)
  | nested id name desc => discard <| ClassM.onAnnotations (AnnotationM.nested id name desc)
  | array id name => discard <| ClassM.onAnnotations (AnnotationM.array id name)
  | finishAnnotation id => ClassM.onAnnotations (AnnotationM.finish id)
  | attach e a ofCode => ClassM.addAttribute e a ofCode
  | finish e => ClassM.finish e
  | parameter m name access => ClassM.onMethod m (MethodM.parameter name access)
  | beginCode m => ClassM.onMethod m MethodM.beginCode
  | code m event => ClassM.onMethod m (MethodM.take event)
  | newLabel => discard <| (SessionM.newLabel : ClassM LabelId)
  | register r => discard <| (r.run : ClassM Nat)

def runAll : List Visit → ClassM Unit
  | [] => return
  | v :: vs => do
    v.run
    runAll vs

/-- A visit whose lists are no longer than their counts can say. -/
def Counted : Visit → Prop
  | code _ event => event.Counted
  | _ => True

end Visit

instance Registration.onward_run (r : Registration) : Keeps Pool.Onward r.run := by
  cases r <;> (dsimp only [run, methodHandle]; infer_instance)

/-! ## What visits leave alone -/

def Field.face (f : Field) : Flags × Nat × Nat × Text × Nat :=
  (f.access, f.nameIndex, f.descIndex, f.signature, f.valueIndex)

namespace Method

def face (m : Method) : Flags × Nat × Nat × Text × List Nat :=
  (m.access, m.nameIndex, m.descIndex, m.signature, m.exceptions)

/-- Work on a method that leaves alone what it says about itself. -/
structure Tended (u v : State) : Prop where
  grows : u.1.1.Grows v.1.1
  version : v.1.2.version = u.1.2.version
  face : v.2.face = u.2.face
  indexed : u.1.1.Wf → u.2.Indexed u.1.1 → v.2.Indexed v.1.1
  tallied : u.2.Tallied u.1.1 → v.2.Tallied v.1.1

instance : Steps Tended where
  refl u := ⟨Steps.refl u.1.1, rfl, rfl, fun _ h => h, id⟩
  trans h h' :=
    ⟨Steps.trans h.grows h'.grows, h'.version.trans h.version, h'.face.trans h.face,
      fun hwf hi => h'.indexed (h.grows hwf).1 (h.indexed hwf hi),
      fun ht => h'.tallied (h.tallied ht)⟩

theorem Steady.tended {u v : State} (h : Steady u v) : Tended u v :=
  ⟨h.grows, (congrArg Session.version h.setting : v.1.2.setting.version = u.1.2.setting.version),
    (congrArg Method.face h.header : v.2.header.face = u.2.header.face), h.indexed,
    fun ht => ht.congr h.header (h.mapped ht.mapped)⟩

/-- A change of a method that leaves alone what it says about itself and its tables. -/
class Tending (f : Method → Method) : Prop where
  face : ∀ m, (f m).face = m.face
  handlers : ∀ m, (f m).handlers = m.handlers
  localRows : ∀ m, (f m).localRows = m.localRows
  localTypeRows : ∀ m, (f m).localTypeRows = m.localTypeRows
  tallied : ∀ p m, m.Tallied p → (f m).Tallied p

instance (defaultValue : Method → Option AnnotationId) (annotations : Method → AnnotationLists)
    (attributes codeAttributes : Method → Array RawAttribute) (hasCode isEnded : Method → Bool) :
    Tending fun m =>
      { m with
        defaultValue := defaultValue m, annotations := annotations m,
        attributes := attributes m, codeAttributes := codeAttributes m, hasCode := hasCode m,
        isEnded := isEnded m } :=
  ⟨fun _ => rfl, fun _ => rfl, fun _ => rfl, fun _ => rfl,
    fun _ _ h => ⟨h.hidden, h.visible, h.invisible, h.parameters, h.mapped⟩⟩

instance (name : Nat) (access : Int) :
    Tending fun m =>
      { m with
        parameterCount := m.parameterCount + 1
        parameters := some (((m.parameters.getD {}).putShort name).putShort access) } := by
  refine ⟨fun _ => rfl, fun _ => rfl, fun _ => rfl, fun _ => rfl,
    fun _ m h => ⟨h.hidden, h.visible, h.invisible, ?_, h.mapped⟩⟩
  have hlength := h.parameters
  simp only [Option.getD_some, toList_putShort', List.length_append, hlength, bytes16,
    List.length_cons, List.length_nil]
  omega

instance (c : Prop) [Decidable c] (f g : Method → Method) [hf : Tending f] [hg : Tending g] :
    Tending fun m => if c then f m else g m := by
  by_cases hc : c
  · simp only [if_pos hc]
    exact hf
  · simp only [if_neg hc]
    exact hg

theorem Indexed.congr {p : Pool} {m m' : Method} (hm : m.Indexed p)
    (hhandlers : m'.handlers = m.handlers) (hrows : m'.localRows = m.localRows)
    (htypes : m'.localTypeRows = m.localTypeRows) : m'.Indexed p :=
  ⟨hhandlers ▸ hm.handlers, hrows ▸ hm.locals, htypes ▸ hm.localTypes⟩

end Method

namespace MethodM

open Method

instance tended_modify (f : Method → Method) [hf : Tending f] :
    Keeps Tended (modify f : MethodM PUnit) := by
  refine ⟨fun u a v h => ?_⟩
  obtain rfl := h.modify
  exact ⟨Steps.refl u.1.1, rfl, hf.face u.2, fun _ hm =>
    hm.congr (hf.handlers u.2) (hf.localRows u.2) (hf.localTypeRows u.2), hf.tallied u.1.1 u.2⟩

instance tended_lift {α : Type} {n : Type → Type} [MonadLiftT n SessionM] {x : n α}
    [hx : Keeps Quiet (liftM x : SessionM α)] : Keeps Tended (liftM x : MethodM α) :=
  ⟨fun u a v h => ((inferInstance : Keeps Steady (liftM x : MethodM α)).run u a v h).tended⟩

instance tended_isLive (op : String) : Keeps Tended (isLive op) := by
  unfold isLive
  infer_instance

instance tended_parameter (name : Text) (access : Int) : Keeps Tended (parameter name access) := by
  unfold parameter
  infer_instance

instance tended_addAttribute (a : RawAttribute) (ofCode : Bool) :
    Keeps Tended (addAttribute a ofCode) := by
  unfold addAttribute
  infer_instance

instance tended_beginCode : Keeps Tended beginCode := by
  unfold beginCode
  infer_instance

instance tended_finish : Keeps Tended finish := by
  unfold finish
  infer_instance

end MethodM

namespace ClassBody

def face (c : ClassBody) : Flags × Nat × Nat × Nat × List Nat :=
  (c.access, c.thisIndex, c.signatureIndex, c.superIndex, c.interfaces)

/-- Work on a class that leaves alone what it and its members say about themselves. -/
structure Tended (x y : State) : Prop where
  grows : x.1.1.Grows y.1.1
  version : y.1.2.version = x.1.2.version
  face : y.2.face = x.2.face
  fields : y.2.fields.toList.map Field.face = x.2.fields.toList.map Field.face
  written : y.2.written = x.2.written
  methods : ∀ (id : MethodId) (m : Method), x.2.methods[id]? = some m → ∃ m' : Method,
    y.2.methods[id]? = some m' ∧ m'.face = m.face ∧
      (x.1.1.Wf → m.Indexed x.1.1 → m'.Indexed y.1.1) ∧ (m.Tallied x.1.1 → m'.Tallied y.1.1)
  inner : x.2.Listed x.1.1 → y.2.Listed y.1.1

instance : Steps Tended where
  refl x :=
    ⟨Steps.refl x.1.1, rfl, rfl, rfl, rfl, fun _ m h => ⟨m, h, rfl, fun _ h => h, id⟩, id⟩
  trans h h' := by
    refine ⟨Steps.trans h.grows h'.grows, h'.version.trans h.version, h'.face.trans h.face,
      h'.fields.trans h.fields, h'.written.trans h.written, fun id m hm => ?_,
      fun hi => h'.inner (h.inner hi)⟩
    obtain ⟨m', hm', hface, hindexed, htallied⟩ := h.methods id m hm
    obtain ⟨m'', hm'', hface', hindexed', htallied'⟩ := h'.methods id m' hm'
    exact ⟨m'', hm'', hface'.trans hface, fun hwf hi =>
      hindexed' (h.grows hwf).1 (hindexed hwf hi), fun ht => htallied' (htallied ht)⟩

/-- A change of a class that leaves alone what it and its members say about themselves. -/
class Tending (f : ClassBody → ClassBody) : Prop where
  face : ∀ c, (f c).face = c.face
  fields : ∀ c, (f c).fields = c.fields
  written : ∀ c, (f c).written = c.written
  methods : ∀ c, (f c).methods = c.methods
  inner : ∀ p c, c.Listed p → (f c).Listed p

instance (sourceIndex outerIndex outerMethodIndex : ClassBody → Nat)
    (sourceDebug : ClassBody → Option (List UInt8)) (annotations : ClassBody → AnnotationLists)
    (attributes : ClassBody → Array RawAttribute) (store : ClassBody → AnnotationStore)
    (isEnded : ClassBody → Bool) :
    Tending fun c =>
      { c with
        sourceIndex := sourceIndex c, sourceDebug := sourceDebug c, outerIndex := outerIndex c,
        outerMethodIndex := outerMethodIndex c, annotations := annotations c,
        attributes := attributes c, store := store c, isEnded := isEnded c } :=
  ⟨fun _ => rfl, fun _ => rfl, fun _ => rfl, fun _ => rfl, fun p _ h =>
    h.congr (Steps.refl p) rfl⟩

instance : Tending fun c => { c with inner := some (c.inner.getD {}) } :=
  ⟨fun _ => rfl, fun _ => rfl, fun _ => rfl, fun _ => rfl, fun _ _ h => ⟨h.size, h.count, h.known⟩⟩

theorem Listed.add {c : ClassBody} {p : Pool} {name : Text} {b : Buffer} (h : c.Listed p)
    (hb : c.inner = some b) (hknown : p.Knows (.classRef name))
    (hnew : ¬ c.innerNames.contains name) (n o i : Nat) (access : Int) :
    Listed
      { c with
        innerNames := c.innerNames.insert name, innerCount := c.innerCount + 1
        inner := c.inner.map fun b => (((b.putShort n).putShort o).putShort i).putShort access }
          p := by
  constructor
  · have hsize := h.size
    rw [hb, Option.getD_some] at hsize
    simp only [hb, Option.map_some, Option.getD_some, toList_putShort', List.length_append, hsize,
      bytes16, List.length_cons, List.length_nil]
    omega
  · have hnew : name ∉ c.innerNames := fun hmem => hnew (Std.HashSet.mem_iff_contains.1 hmem)
    rw [Std.HashSet.size_insert, if_neg hnew, h.count]
  · intro name' hname'
    rcases Std.HashSet.mem_insert.1 hname' with heq | hmem
    · obtain rfl := eq_of_beq heq
      exact hknown
    · exact h.known name' hmem

theorem tended_of_members {x y : State} (hgrows : x.1.1.Grows y.1.1)
    (hversion : y.1.2.version = x.1.2.version) (hface : y.2.face = x.2.face)
    (hfields : y.2.fields = x.2.fields) (hwritten : y.2.written = x.2.written)
    (hmethods : y.2.methods = x.2.methods) (hinner : x.2.Listed x.1.1 → y.2.Listed y.1.1) :
    Tended x y := by
  refine ⟨hgrows, hversion, hface, by rw [hfields], hwritten, fun id m hm => ?_, hinner⟩
  rw [hmethods]
  exact ⟨m, hm, rfl, fun hwf hi => hi.mono (hgrows hwf).2 rfl, fun ht => ht.mono hgrows.onward⟩

end ClassBody

/-! ## Work on annotations -/

def AnnotationStore.Kept (u v : (Pool × Session) × AnnotationStore) : Prop :=
  u.1.1.Grows v.1.1 ∧ v.1.2 = u.1.2

namespace AnnotationM

open AnnotationStore

instance : Steps Kept where
  refl u := ⟨Steps.refl u.1.1, rfl⟩
  trans h h' := ⟨Steps.trans h.1 h'.1, h'.2.trans h.2⟩

instance kept_pool {α : Type} (x : PoolM α) [hx : Keeps Pool.Grows x] :
    Keeps Kept (liftM x : AnnotationM α) := by
  refine ⟨fun u a v h => ?_⟩
  simp only [ends_lift, ends_liftSelf] at h
  obtain ⟨⟨h, hs⟩, -⟩ := h
  exact ⟨hx.run _ _ _ h, hs.symm⟩

instance kept_modify (f : AnnotationStore → AnnotationStore) :
    Keeps Kept (modify f : AnnotationM PUnit) := by
  refine ⟨fun u a v h => ?_⟩
  obtain rfl := h.modify
  exact ⟨Steps.refl u.1.1, rfl⟩

instance kept_newList (l : ElementList) : Keeps Kept (newList l) := by
  unfold newList
  infer_instance

instance kept_newBody (b : Buffer) : Keeps Kept (newBody b) := by
  unfold newBody
  infer_instance

instance kept_emit (body : Nat) (f : Buffer → Buffer) : Keeps Kept (emit body f) := by
  unfold emit
  infer_instance

instance kept_annotationBehind (b : Buffer) (desc : Text) :
    Keeps Kept (annotationBehind b desc) := by
  unfold annotationBehind
  infer_instance

instance kept_newTop (desc : Text) : Keeps Kept (newTop desc) := by
  unfold newTop
  infer_instance

instance kept_newOnType (ref : Int) (path : Option TypePath) (desc : Text) :
    Keeps Kept (newOnType ref path desc) := by
  unfold newOnType
  infer_instance

instance kept_newValue : Keeps Kept newValue := by
  unfold newValue
  infer_instance

instance kept_openElement (id : AnnotationId) (name : Text) : Keeps Kept (openElement id name) := by
  unfold openElement
  infer_instance

instance kept_listBehind (body : Nat) (isNamed : Bool) : Keeps Kept (listBehind body isNamed) := by
  unfold listBehind
  infer_instance

instance kept_enumConstant (id : AnnotationId) (name desc value : Text) :
    Keeps Kept (enumConstant id name desc value) := by
  unfold enumConstant
  infer_instance

instance kept_nested (id : AnnotationId) (name desc : Text) : Keeps Kept (nested id name desc) := by
  unfold nested
  infer_instance

instance kept_array (id : AnnotationId) (name : Text) : Keeps Kept (array id name) := by
  unfold array
  infer_instance

instance kept_finish (id : AnnotationId) : Keeps Kept (finish id) := by
  refine keeps_then fun s => ?_
  dsimp only
  split <;> infer_instance

theorem quiet_scalar? {v : Value} {tag : Char} {index : PoolM Nat}
    (h : scalar? v = some (tag, index)) : Keeps Pool.Grows index := by
  cases v with
  | string t => cases h; exact (interns_utf8 t).quiet
  | int64 n => cases h; exact (interns_long n).quiet
  | float32 bits => cases h; exact (interns_float bits).quiet
  | float64 bits => cases h; exact (interns_double bits).quiet
  | type t => cases h; exact (interns_utf8 t.desc).quiet
  | int8 n => cases h; exact (interns_integer _).quiet
  | bool b => cases h; exact (interns_integer _).quiet
  | char n => cases h; exact (interns_integer _).quiet
  | int16 n => cases h; exact (interns_integer _).quiet
  | int32 n => cases h; exact (interns_integer _).quiet
  | int n => cases h; exact (interns_integer _).quiet
  | _ => cases h

instance kept_putScalar (body : Nat) (v : Value) : Keeps Kept (putScalar body v) := by
  unfold putScalar
  split
  next tag index h =>
    have := quiet_scalar? h
    infer_instance
  next =>
    have : Keeps Pool.Grows (PoolM.integer 0) := (PoolM.interns_integer 0).quiet
    infer_instance

instance kept_putScalars (body : Nat) (vs : List Value) : Keeps Kept (putScalars body vs) := by
  induction vs with
  | nil => exact keeps_pure _
  | cons v vs ih => exact keeps_then fun _ => ih

instance kept_element (id : AnnotationId) (name : Text) (v : Value) :
    Keeps Kept (element id name v) := by
  refine keeps_then fun body => ?_
  split <;> infer_instance

end AnnotationM

/-! ## Visits to parts -/

namespace ClassM

open ClassBody

section

variable {α : Type}

instance tended_lift {n : Type → Type} [MonadLiftT n SessionM] {x : n α}
    [hx : Keeps Quiet (liftM x : SessionM α)] : Keeps Tended (liftM x : ClassM α) := by
  refine keeps_lift hx fun s t c h => tended_of_members h.grows ?_ rfl rfl rfl rfl fun hi =>
    hi.congr h.grows.onward rfl
  exact (congrArg Session.version h.setting : t.2.setting.version = s.2.setting.version)

instance tended_modify (f : ClassBody → ClassBody) [hf : Tending f] :
    Keeps Tended (modify f : ClassM PUnit) := by
  refine ⟨fun x a y h => ?_⟩
  obtain rfl := h.modify
  have hsame := Steps.refl (R := Pool.Grows) x.1.1
  exact tended_of_members hsame rfl (hf.face x.2) (hf.fields x.2) (hf.written x.2)
    (hf.methods x.2) (hf.inner x.1.1 x.2)

theorem tended_withMethod {x y : State} {id : MethodId} {m m' : Method}
    (hm : x.2.methods[id]? = some m) (htended : Method.Tended (x.1, m) (y.1, m'))
    (hy : y.2 = x.2.withMethod id m') : Tended x y := by
  refine ⟨htended.grows, htended.version, by rw [hy]; rfl, by rw [hy]; rfl, by rw [hy]; rfl,
    fun id' m₁ hm₁ => ?_, fun hi => hi.congr htended.grows.onward (by rw [hy]; rfl)⟩
  by_cases hid : id = id'
  · subst hid
    rw [hm] at hm₁
    obtain rfl := Option.some.inj hm₁
    exact ⟨m', hy ▸ getElem?_withMethod hm, htended.face, htended.indexed, htended.tallied⟩
  · refine ⟨m₁, ?_, rfl, fun hwf hi => hi.mono (htended.grows hwf).2 rfl,
      fun ht => ht.mono htended.grows.onward⟩
    rw [hy, withMethod, Array.getElem?_setIfInBounds_ne hid]
    exact hm₁

theorem tended_onMethod {id : MethodId} {act : MethodM α} (hact : Keeps Method.Tended act) :
    Keeps Tended (onMethod id act) := by
  refine ⟨fun x a y h => ?_⟩
  obtain ⟨m, m', hm, hrun, hy⟩ := ends_onMethod h
  exact tended_withMethod hm (hact.run _ _ _ hrun) hy

instance tended_onMethod' (id : MethodId) (act : MethodM α) [hact : Keeps Method.Tended act] :
    Keeps Tended (onMethod id act) :=
  tended_onMethod hact

theorem ends_onAnnotations {act : AnnotationM α} {x y : State} {a : α}
    (e : Ends (onAnnotations act) x a y) :
    ∃ store, Ends act (x.1, x.2.store) a (y.1, store) ∧ y.2 = { x.2 with store } := by
  obtain ⟨store, w, hw, e⟩ := e.bind
  obtain ⟨rfl, rfl⟩ := ends_modifyGet.1 hw
  obtain ⟨⟨b, store'⟩, w, hw, e⟩ := e.bind
  replace e := ends_modify_bind.1 e
  obtain ⟨rfl, rfl⟩ := e.pure
  obtain ⟨hw, hc⟩ := hw.lift
  refine ⟨store', ends_run.1 hw, ?_⟩
  rw [← hc]

instance tended_onAnnotations (act : AnnotationM α) [hact : Keeps AnnotationStore.Kept act] :
    Keeps Tended (onAnnotations act) := by
  refine ⟨fun x a y h => ?_⟩
  obtain ⟨store, hrun, hy⟩ := ends_onAnnotations h
  obtain ⟨hgrows, hsession⟩ := hact.run _ _ _ hrun
  refine tended_of_members hgrows (congrArg Session.version hsession) ?_ ?_ ?_ ?_ fun hi =>
    hi.congr hgrows.onward ?_ <;> rw [hy] <;> rfl

end

structure Pooled (x y : State) : Prop where
  grows : x.1.1.Grows y.1.1
  rest : y = ((y.1.1, x.1.2), x.2)

instance : Steps Pooled where
  refl x := ⟨Steps.refl x.1.1, rfl⟩
  trans h h' := ⟨Steps.trans h.grows h'.grows, by rw [h'.rest, h.rest]⟩

instance pooled_pool {α : Type} (act : PoolM α) [h : Keeps Pool.Grows act] :
    Keeps Pooled (liftM act : ClassM α) := by
  refine ⟨fun x a y e => ?_⟩
  obtain ⟨hact, hy⟩ := ends_pool.1 e
  exact ⟨h.run _ _ _ hact, hy⟩

instance pooled_isLive (op : String) : Keeps Pooled (isLive op) := by
  unfold isLive
  infer_instance

variable {x y : State}

theorem Pooled.tended (h : Pooled x y) : Tended x y := by
  refine tended_of_members h.grows ?_ ?_ ?_ ?_ ?_
    fun hi => hi.congr h.grows.onward ?_ <;> rw [h.rest]

theorem ends_either {α β : Type} {c : Prop} [Decidable c] {act act' : ClassM α} {k : α → ClassM β}
    {b : β} (hact : Keeps Pooled act) (hact' : Keeps Pooled act')
    (e : Ends (if c then act >>= k else act' >>= k) x b y) :
    ∃ a w, Pooled x w ∧ (¬ c → Ends act' x a w) ∧ Ends (k a) w b y := by
  split at e
  next hc =>
    obtain ⟨a, w, h, e⟩ := e.bind
    exact ⟨a, w, h.keeps, absurd hc, e⟩
  next =>
    obtain ⟨a, w, h, e⟩ := e.bind
    exact ⟨a, w, h.keeps, fun _ => h, e⟩

instance tended_isLive (op : String) : Keeps Tended (isLive op) := by
  unfold isLive
  infer_instance

instance tended_source (file debug : Text) : Keeps Tended (source file debug) := by
  unfold source
  infer_instance

instance tended_outerClass (owner name desc : Text) :
    Keeps Tended (outerClass owner name desc) := by
  have : Keeps Pool.Grows (nameAndType name desc) := (interns_nameAndType name desc).quiet
  unfold outerClass
  infer_instance

instance tended_innerClass (name outer inner : Text) (access : Int) :
    Keeps Tended (innerClass name outer inner access) := by
  refine ⟨fun x a y e => ?_⟩
  obtain ⟨live, w, hlive, e⟩ := e.bind
  have hlive : Tended x w := hlive.keeps
  split at e
  next =>
    obtain ⟨_, x₁, hopen, e⟩ := e.bind
    obtain ⟨n, x₂, hn, e⟩ := e.bind
    replace e := ends_get_bind.1 e
    have hx₁ : Tended w x₁ := hopen.keeps
    have hx₂ : Tended x₁ x₂ := hn.keeps
    have hbefore := Steps.trans hlive (Steps.trans hx₁ hx₂)
    split at e
    next =>
      obtain ⟨-, rfl⟩ := e.pure
      exact hbefore
    next hnew =>
      obtain ⟨o, x₃, hx₃, -, e⟩ := ends_either inferInstance inferInstance e
      obtain ⟨i, x₄, hx₄, -, e⟩ := ends_either inferInstance inferInstance e
      have hlater : Pooled x₂ x₄ := Steps.trans hx₃ hx₄
      have hknown := hlater.grows.onward.known _ (knows_intern (ends_pool.1 hn).1)
      have hsame : x₄.2 = x₁.2 := by rw [hlater.rest, (ends_pool.1 hn).2]
      have hinner : x₄.2.inner = some (w.2.inner.getD {}) := by
        rw [hsame, ← hopen.modify]
      rw [show x₂.2 = x₄.2 by rw [hlater.rest]] at hnew
      refine Steps.trans (Steps.trans hbefore hlater.tended) ?_
      obtain rfl := e.modify
      exact tended_of_members (Steps.refl _) rfl rfl rfl rfl rfl fun hi =>
        hi.add hinner hknown hnew n o i access
  next =>
    obtain ⟨-, rfl⟩ := e.pure
    exact hlive

instance tended_field (f : FieldId) : Keeps Tended (field f) := by
  refine keeps_then fun c => ?_
  split <;> infer_instance

theorem tended_modifyField (f : FieldId) {change : Field → Field}
    (hchange : ∀ f, (change f).face = f.face) : Keeps Tended (modifyField f change) := by
  refine ⟨fun x a y h => ?_⟩
  obtain rfl := h.modify
  have hsame := Steps.refl (R := Pool.Grows) x.1.1
  refine ⟨hsame, rfl, rfl, ?_, rfl, fun _ m hm => ⟨m, hm, rfl, fun _ hi => hi, id⟩, fun hi =>
    hi.congr hsame.onward rfl⟩
  refine List.ext_getElem? fun i => ?_
  simp only [List.getElem?_map, Array.getElem?_toList, Array.getElem?_modify]
  split
  next h => cases x.2.fields[i]? <;> simp [hchange]
  next => rfl

instance tended_isElementLive (op : String) (e : Element) : Keeps Tended (isElementLive op e) := by
  cases e <;> unfold isElementLive <;> infer_instance

instance tended_modifyAnnotations (change : AnnotationLists → AnnotationLists) (e : Element) :
    Keeps Tended (modifyAnnotations change e) := by
  cases e with
  | body => unfold modifyAnnotations; infer_instance
  | field f => exact tended_modifyField f fun _ => rfl
  | method m => unfold modifyAnnotations; infer_instance

instance tended_newAnnotationOn (e : Element) (desc : Text) (isVisible : Bool) :
    Keeps Tended (newAnnotationOn e desc isVisible) := by
  unfold newAnnotationOn
  infer_instance

instance tended_newTypeAnnotationOn (e : Element) (ref : Int) (path : Option TypePath) (desc : Text)
    (isVisible : Bool) : Keeps Tended (newTypeAnnotationOn e ref path desc isVisible) := by
  unfold newTypeAnnotationOn
  infer_instance

instance tended_newDefaultOf (m : MethodId) : Keeps Tended (newDefaultOf m) := by
  unfold newDefaultOf
  infer_instance

theorem size_addToParameter {count i : Nat} {id : AnnotationId}
    {lists : Option (Array (Array AnnotationId))} (h : ∀ ls ∈ lists, ls.size = count) :
    ∀ ls ∈ addToParameter count i id lists, ls.size = count := by
  intro ls hls
  obtain rfl := Option.some.inj hls
  rw [Array.size_modify]
  cases lists with
  | none => exact Array.size_replicate
  | some ls => exact h ls rfl

theorem ends_onMethod_desc {x y : State} {id : MethodId} {desc : Text}
    (e : Ends (onMethod id (do return (← get).desc)) x desc y) :
    ∃ m, x.2.methods[id]? = some m ∧ m.desc = desc ∧ x = y := by
  obtain ⟨m, m', hm, h, hy⟩ := ends_onMethod e
  replace h := ends_get_bind.1 h
  obtain ⟨hdesc, h⟩ := h.pure
  obtain ⟨hs, hm'⟩ := Prod.mk.inj h
  refine ⟨m, hm, hdesc, Prod.ext hs ?_⟩
  rw [hy, ← hm', withMethod_self hm]

theorem tended_parameters {x y : State} {id : MethodId} {m : Method} {u : Unit} {hidden : Nat}
    {visible invisible : Option (Array (Array AnnotationId))} {f : Method → Method}
    (hm : x.2.methods[id]? = some m) (e : Ends (onMethod id (modify f)) x u y)
    (hf : f m = { m with
      hiddenParameters := hidden, visibleParameters := visible, invisibleParameters := invisible })
    (hhidden : m.Tallied x.1.1 → hidden ≤ m.argumentCount)
    (hvisible : m.Tallied x.1.1 → ∀ ls ∈ visible, ls.size = m.argumentCount)
    (hinvisible : m.Tallied x.1.1 → ∀ ls ∈ invisible, ls.size = m.argumentCount) : Tended x y := by
  obtain ⟨m₁, m', hm₁, h, hy⟩ := ends_onMethod e
  obtain rfl : m = m₁ := Option.some.inj (hm.symm.trans hm₁)
  obtain ⟨hs, rfl⟩ := Prod.mk.inj h.modify
  refine tended_withMethod hm ?_ hy
  rw [← hs, hf]
  exact ⟨Steps.refl _, rfl, rfl, fun _ hi => hi.congr rfl rfl rfl,
    fun ht => ⟨hhidden ht, hvisible ht, hinvisible ht, ht.parameters, ht.mapped⟩⟩

instance tended_newParameterAnnotation (m : MethodId) (i : Int) (desc : Text) (isVisible : Bool) :
    Keeps Tended ( newParameterAnnotation m i desc isVisible) := by
  refine ⟨fun x a y e => ?_⟩
  obtain ⟨live, x₁, h₁, e⟩ := e.bind
  have hx₁ : Tended x x₁ := h₁.keeps
  refine Steps.trans hx₁ ?_
  cases live with
  | false =>
    obtain ⟨-, rfl⟩ := e.pure
    exact Steps.refl _
  | true =>
    rw [if_pos rfl] at e
    obtain ⟨_, _, h, e⟩ := e.bind
    obtain ⟨method, hm, rfl, rfl⟩ := ends_onMethod_desc h
    obtain ⟨ts, x₂, h, e⟩ := e.bind
    have hsame : x₁ = x₂ ∧ JavaType.argumentTypes method.desc = .ok ts := by
      simp only [ends_lift, ends_checked] at h
      exact ⟨Prod.ext (Prod.ext h.1.1.2 h.1.2) h.2, h.1.1.1⟩
    obtain ⟨rfl, hts⟩ := hsame
    have hcount : method.argumentCount = ts.length := by rw [Method.argumentCount, hts]
    dsimp only at e
    split at e
    · exact e.keeps
    next hrange =>
      split at e
      · obtain ⟨_, x₂, h, e⟩ := e.bind
        have hhidden (ht : method.Tallied x₁.1.1) :
            max method.hiddenParameters (i.toNat + 1) ≤ method.argumentCount := by
          have := ht.hidden
          omega
        have hx₂ : Tended x₁ x₂ :=
          tended_parameters hm h rfl hhidden (fun ht => ht.visible) (fun ht => ht.invisible)
        exact Steps.trans hx₂ e.keeps
      · obtain ⟨id, x₂, hnew, e⟩ := e.bind
        obtain ⟨_, x₃, h, e⟩ := e.bind
        obtain ⟨-, rfl⟩ := e.pure
        have hx₂ : Tended x₁ x₂ := hnew.keeps
        have hm₂ : x₂.2.methods[m]? = some method := by
          obtain ⟨_, -, hx₂⟩ := ends_onAnnotations hnew
          rw [hx₂]
          exact hm
        refine Steps.trans hx₂ ?_
        rw [← hcount] at h
        cases isVisible with
        | true =>
          exact tended_parameters hm₂ h rfl (fun ht => ht.hidden)
            (fun ht => size_addToParameter ht.visible) (fun ht => ht.invisible)
        | false =>
          exact tended_parameters hm₂ h rfl (fun ht => ht.hidden) (fun ht => ht.visible)
            (fun ht => size_addToParameter ht.invisible)

instance tended_addAttribute (e : Element) (a : RawAttribute) (ofCode : Bool) :
    Keeps Tended (addAttribute e a ofCode) := by
  cases e with
  | body => unfold addAttribute; infer_instance
  | field f =>
    have : Keeps Tended (modifyField f fun f => { f with attributes := f.attributes.push a }) :=
      tended_modifyField f fun _ => rfl
    unfold addAttribute
    infer_instance
  | method m => unfold addAttribute; infer_instance

instance tended_finish (e : Element) : Keeps Tended (finish e) := by
  cases e with
  | body => unfold finish; infer_instance
  | field f =>
    have : Keeps Tended (modifyField f fun f => { f with isEnded := true }) :=
      tended_modifyField f fun _ => rfl
    unfold finish
    infer_instance
  | method m => unfold finish; infer_instance

end ClassM

namespace Visit

open ClassBody

def IsAside : Visit → Prop
  | header .. | field .. | method .. => False
  | _ => True

theorem tended_run {v : Visit} (hv : v.IsAside) (hcounted : v.Counted) : Keeps Tended v.run := by
  cases v with
  | header => exact hv.elim
  | field => exact hv.elim
  | method => exact hv.elim
  | code m event =>
    exact ClassM.tended_onMethod
      ⟨fun u a w h => ((MethodM.steady_take hcounted).run u a w h).tended⟩
  | register r =>
    have : Keeps Pool.Grows r.run := quiet_of_registers fun p i q hp e =>
      ⟨(Registration.records_run hp e).1.wf, (Registration.records_run hp e).1.extend⟩
    unfold run
    infer_instance
  | _ => unfold run; infer_instance

end Visit

end ClassAssembler
