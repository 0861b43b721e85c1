import ClassAssembler.Proofs.Closing
import ClassAssembler.Proofs.CodeWork

/-!
# What the code of a method leaves alone

Events of the code, whatever they are, leave the header of their method alone and the class it
belongs to.  The pool grows, and the rows of the tables of the method refer to entries of the pool
that are of the right kind (`Method.Indexed`).
-/

namespace ClassAssembler

set_option synthInstance.maxSize 400

open Machine Item

def Pool.TextAt (p : Pool) (i : Nat) : Prop := ∃ t, p.at? i = some (.utf8 t)

def Pool.ClassAt (p : Pool) (i : Nat) : Prop := ∃ name, p.at? i = some (.classRef name)

theorem Pool.TextAt.mono {p q : Pool} (h : p.Extends q) {i : Nat} (hi : p.TextAt i) : q.TextAt i :=
  hi.imp fun _ ht => h.at? ht

namespace Method

def header (m : Method) : Method :=
  { access := m.access, nameIndex := m.nameIndex, descIndex := m.descIndex, name := m.name
    desc := m.desc, signature := m.signature, exceptions := m.exceptions
    parameterCount := m.parameterCount, parameters := m.parameters
    defaultValue := m.defaultValue, annotations := m.annotations
    visibleParameters := m.visibleParameters, invisibleParameters := m.invisibleParameters
    hiddenParameters := m.hiddenParameters
    attributes := m.attributes, codeAttributes := m.codeAttributes }

/-- What a method says about itself, with the tables that refer to the pool. -/
def record (m : Method) : Method :=
  { m.header with
    handlers := m.handlers, localRows := m.localRows, localTypeRows := m.localTypeRows }

/-- The rows of the tables of a method refer to entries of the right kind. -/
structure Indexed (p : Pool) (m : Method) : Prop where
  handlers : ∀ h ∈ m.handlers, h.caught = [] ∧ h.caughtIndex = 0 ∨
    p.at? h.caughtIndex = some (.classRef h.caught)
  locals : ∀ row ∈ m.localRows, p.TextAt row.name ∧ p.TextAt row.desc
  localTypes : ∀ row ∈ m.localTypeRows, p.TextAt row.name ∧ p.TextAt row.desc

theorem Indexed.mono {p q : Pool} (h : p.Extends q) {m m' : Method} (hm : m'.record = m.record)
    (hi : m.Indexed p) : m'.Indexed q := by
  have hhandlers : m'.handlers = m.handlers :=
    (congrArg Method.handlers hm : m'.record.handlers = m.record.handlers)
  have hlocals : m'.localRows = m.localRows :=
    (congrArg Method.localRows hm : m'.record.localRows = m.record.localRows)
  have htypes : m'.localTypeRows = m.localTypeRows :=
    (congrArg Method.localTypeRows hm : m'.record.localTypeRows = m.record.localTypeRows)
  refine ⟨?_, ?_, ?_⟩
  · rw [hhandlers]
    exact fun row hrow => (hi.handlers row hrow).imp_right h.at?
  · rw [hlocals]
    exact fun row hrow => ⟨(hi.locals row hrow).1.mono h, (hi.locals row hrow).2.mono h⟩
  · rw [htypes]
    exact fun row hrow => ⟨(hi.localTypes row hrow).1.mono h, (hi.localTypes row hrow).2.mono h⟩

/-- Work on the code of a method. -/
structure Steady (u v : State) : Prop where
  grows : u.1.1.Grows v.1.1
  setting : v.1.2.setting = u.1.2.setting
  header : v.2.header = u.2.header
  indexed : u.1.1.Wf → u.2.Indexed u.1.1 → v.2.Indexed v.1.1
  mapped : u.2.Mapped u.1.1 → v.2.Mapped v.1.1

instance : Steps Steady where
  refl u := ⟨Steps.refl u.1.1, rfl, rfl, fun _ h => h, id⟩
  trans h h' :=
    ⟨Steps.trans h.grows h'.grows, h'.setting.trans h.setting, h'.header.trans h.header,
      fun hwf hi => h'.indexed (h.grows hwf).1 (h.indexed hwf hi),
      fun hm => h'.mapped (h.mapped hm)⟩

theorem steady_of_record {u v : State} (hgrows : u.1.1.Grows v.1.1)
    (hsetting : v.1.2.setting = u.1.2.setting) (hm : v.2.record = u.2.record)
    (hmap : v.2.mapping = u.2.mapping) : Steady u v :=
  ⟨hgrows, hsetting, (congrArg header hm : v.2.record.header = u.2.record.header),
    fun hwf hi => hi.mono (hgrows hwf).2 hm, fun hmapped => hmapped.congr hgrows.onward hmap⟩

theorem record_of_core {m m' : Method} (h : m'.core = m.core) : m'.record = m.record :=
  (congrArg record h : m'.core.record = m.core.record)

theorem Calm.steady {own : LabelId → Prop} {u v : State} (h : Calm own u v) : Steady u v := by
  have hm := record_of_core h.core
  exact ⟨h.grows, h.setting, (congrArg header hm : v.2.record.header = u.2.record.header),
    fun hwf hi => hi.mono (h.grows hwf).2 hm, h.mapped⟩

/-- A change of a method that leaves its record and its stack map alone. -/
class Unrecorded (f : Method → Method) : Prop where
  record : ∀ m, (f m).record = m.record
  mapping : ∀ m, (f m).mapping = m.mapping

instance (compute : Method → Compute) (code : Method → Buffer)
    (maxStack maxLocals frameLocals previousOffset height peak : Method → Int)
    (subroutineCount : Method → Nat) (previousFrame : Method → Option MapFrame)
    (lastFrameOffset : Method → Option Nat) (lineRows : Method → Array LineRow)
    (entry lastBlock currentBlock : Method → Option LabelId)
    (forward : Method → Array LabelId) (hasPending hasCode hasMaxs isEnded : Method → Bool) :
    Unrecorded fun m =>
      { m with
        compute := compute m, code := code m,
        maxStack := maxStack m, maxLocals := maxLocals m, frameLocals := frameLocals m,
        previousOffset := previousOffset m, height := height m, peak := peak m,
        subroutineCount := subroutineCount m, previousFrame := previousFrame m,
        lastFrameOffset := lastFrameOffset m, lineRows := lineRows m, entry := entry m,
        lastBlock := lastBlock m, currentBlock := currentBlock m, forward := forward m,
        hasPending := hasPending m, hasCode := hasCode m, hasMaxs := hasMaxs m,
        isEnded := isEnded m } :=
  ⟨fun _ => rfl, fun _ => rfl⟩

end Method

open Method

instance : CodeRelation Steady where
  session _ h := steady_of_record h.grows h.setting rfl rfl
  label s _ _ _ := steady_of_record (Steps.refl s.1) rfl rfl rfl
  method s m m' h _ :=
    steady_of_record (Steps.refl s.1) rfl
      (congrArg record h : m'.uncoded.record = m.uncoded.record)
      (congrArg mapping h : m'.uncoded.mapping = m.uncoded.mapping)

instance steady_modify (f : Method → Method) [hf : Unrecorded f] :
    Keeps Steady (modify f : MethodM PUnit) := by
  refine ⟨fun u a v h => ?_⟩
  obtain rfl := h.modify
  exact steady_of_record (Steps.refl u.1.1) rfl (hf.record u.2) (hf.mapping u.2)

instance steady_takeCode :
    Keeps Steady (modifyGet fun m : Method => (m.code, { m with code := {} }) :
      MethodM Buffer) := by
  refine ⟨fun u a v h => ?_⟩
  obtain ⟨-, rfl⟩ := ends_modifyGet.1 h
  exact steady_of_record (Steps.refl u.1.1) rfl rfl rfl


namespace MethodM

theorem Keeps.steady {α : Type} {x : MethodM α} (h : Keeps (Calm fun _ => True) x) :
    Keeps Steady x :=
  ⟨fun u a v e => (h.run u a v e).steady⟩

instance steady_frame (e : FrameEvent LabelId) :
    Keeps Steady (frame e) := Keeps.steady inferInstance

instance steady_prepareFrames (entry : LabelId) : Keeps Steady (prepareFrames entry) :=
  Keeps.steady inferInstance

instance steady_addFrame (f : MapFrame) : Keeps Steady (addFrame f) := Keeps.steady inferInstance

instance steady_addBlockFrame (f : Frame) :
    Keeps Steady (addBlockFrame f) := Keeps.steady inferInstance

instance steady_openCode : Keeps Steady openCode := by
  refine keeps_then fun m => ?_
  split <;> infer_instance

end MethodM

def Instruction.Counted {T : Type} : Instruction T → Prop
  | dynamic _ _ _ args => args.length < 65536
  | _ => True

theorem Instruction.Regular.counted {T : Type} {i : Instruction T} (h : i.Regular) : i.Counted := by
  cases i with
  | dynamic => exact h.1
  | _ => trivial

theorem Instruction.steady_write {i : Instruction LabelId} (h : i.Counted) :
    Keeps Steady i.write := by
  refine Instruction.code_write fun name desc method args hi => ?_
  subst hi
  have hentry := PoolM.quiet_dynamicEntry name desc method h
  infer_instance

def CodeEvent.Counted {T : Type} : CodeEvent T → Prop
  | instruction i => i.Counted
  | _ => True

namespace MethodM

variable {slot : Int} {row : LocalRow} {u v w : State} {desc name : Text}

/-! ## Tables -/

theorem steady_addRow {α : Type} {x : PoolM α} [hon : Keeps Pool.Onward x] {a : α}
    {f : Method → Method} (hx : ∀ {counted : Prop}, u.1.1.Wf { counted } → w.1.1.Wf { counted } ∧
      u.1.1.Extends w.1.1 ∧ (u.2.Indexed w.1.1 → (f u.2).Indexed w.1.1))
    (hf : (f u.2).header = u.2.header) (hmap : (f u.2).mapping = u.2.mapping)
    (h : Ends (liftM x : MethodM α) u a w) (e : Ends (modify f : MethodM PUnit) w ⟨⟩ v) :
    Steady u v := by
  obtain ⟨h, hs, hm⟩ := ends_pool h
  obtain rfl := e.modify
  have honward : u.1.1.Onward w.1.1 := hon.run _ _ _ h
  refine ⟨⟨honward, fun hwf => ⟨(hx hwf).1, (hx hwf).2.1⟩⟩, by rw [hs], by rw [hm, hf],
    fun hwf hi => ?_, fun hmapped => hmapped.congr honward (by rw [hm, hmap])⟩
  obtain ⟨-, hext, hadd⟩ := hx hwf
  rw [hm]
  exact hadd (hi.mono hext rfl)

theorem indexed_pushHandler {p : Pool} {m : Method} {row : Handler} (hm : m.Indexed p)
    (hrow : row.caught = [] ∧ row.caughtIndex = 0 ∨
      p.at? row.caughtIndex = some (.classRef row.caught)) :
    Indexed p { m with handlers := m.handlers.push row } :=
  ⟨Array.forall_mem_push.2 ⟨hrow, hm.handlers⟩, hm.locals, hm.localTypes⟩

instance steady_tryCatch (start stop handler : LabelId) (caught : Text) :
    Keeps Steady (tryCatch start stop handler caught) := by
  refine ⟨fun u a v e => ?_⟩
  unfold tryCatch at e
  split at e
  next hempty =>
    obtain rfl := e.modify
    exact ⟨Steps.refl u.1.1, rfl, rfl, fun _ hm =>
      indexed_pushHandler hm (.inl ⟨by simpa using hempty, rfl⟩), id⟩
  · obtain ⟨i, w, h, e⟩ := e.bind
    refine steady_addRow (fun hwf => ?_) rfl rfl h e
    obtain ⟨hreg, hat⟩ := PoolM.interns_classRef caught _ _ _ hwf (ends_pool h).1
    exact ⟨hreg.wf, hreg.extend, fun hm => indexed_pushHandler hm (.inr hat)⟩

theorem ends_localRow_texts {start stop : Int} {p q : Pool} {counted : Prop} (hp : p.Wf { counted })
    (e : Ends (localRow name desc start stop slot) p row q) :
    q.Wf { counted } ∧ p.Extends q ∧ q.TextAt row.name ∧ q.TextAt row.desc := by
  obtain ⟨i, p₁, h₁, e⟩ := e.bind
  obtain ⟨j, p₂, h₂, e⟩ := e.bind
  obtain ⟨rfl, rfl⟩ := e.pure
  obtain ⟨hreg₁, hat₁⟩ := PoolM.interns_utf8 name _ _ _ hp h₁
  obtain ⟨hreg₂, hat₂⟩ := PoolM.interns_utf8 desc _ _ _ hreg₁.wf h₂
  exact ⟨hreg₂.wf, hreg₁.extend.trans hreg₂.extend, ⟨name, hreg₂.extend.at? hat₁⟩, ⟨desc, hat₂⟩⟩

instance onward_localRow (name desc : Text) (start stop slot : Int) :
    Keeps Pool.Onward (localRow name desc start stop slot) := by
  unfold localRow
  infer_instance

theorem steady_localRow {s t : Int}
    (h : Ends (liftM (localRow name desc s t slot) : MethodM LocalRow) u row w)
    (e : Ends (modify fun m : Method => { m with localRows := m.localRows.push row } :
      MethodM PUnit) w ⟨⟩ v) :
    Steady u v := by
  refine steady_addRow (fun hwf => ?_) rfl rfl h e
  obtain ⟨hwf', hext, htexts⟩ := ends_localRow_texts hwf (ends_pool h).1
  exact ⟨hwf', hext, fun hm => ⟨hm.handlers, Array.forall_mem_push.2 ⟨htexts, hm.locals⟩,
    hm.localTypes⟩⟩

theorem steady_localTypeRow {s t : Int}
    (h : Ends (liftM (localRow name desc s t slot) : MethodM LocalRow) u row w)
    (e : Ends (modify fun m : Method => { m with localTypeRows := m.localTypeRows.push row } :
      MethodM PUnit) w ⟨⟩ v) :
    Steady u v := by
  refine steady_addRow (fun hwf => ?_) rfl rfl h e
  obtain ⟨hwf', hext, htexts⟩ := ends_localRow_texts hwf (ends_pool h).1
  exact ⟨hwf', hext, fun hm => ⟨hm.handlers, hm.locals,
    Array.forall_mem_push.2 ⟨htexts, hm.localTypes⟩⟩⟩

instance steady_localVariable (name desc signature : Text) (start stop : LabelId) (slot : Int) :
    Keeps Steady (localVariable name desc signature start stop slot) := by
  have hrow (s t : Int) : Keeps Steady (do
      let row ← localRow name desc s t slot
      modify fun m => { m with localRows := m.localRows.push row }
      unless (← get).compute = .nothing do
        needLocals (localsFor (← isWideDescriptor desc) slot) : MethodM Unit) := by
    refine ⟨fun u a v e => ?_⟩
    obtain ⟨row, w, h, e⟩ := e.bind
    obtain ⟨_, w', h', e⟩ := e.bind
    exact Steps.trans (steady_localRow h h')
      ((inferInstance : Keeps Steady (do
        unless (← get).compute = .nothing do
          needLocals (localsFor (← isWideDescriptor desc) slot) : MethodM Unit)).run _ _ _ e)
  refine keeps_then fun b => ?_
  split
  · refine keeps_then fun b' => ?_
    split
    · refine keeps_then fun k => keeps_then fun k' => ?_
      split
      · exact hrow _ _
      · refine ⟨fun u a v e => ?_⟩
        obtain ⟨row, w, h, e⟩ := e.bind
        obtain ⟨_, w', h', e⟩ := e.bind
        exact Steps.trans (steady_localTypeRow h h') ((hrow _ _).run _ _ _ e)
    · infer_instance
  · infer_instance

/-! ## The end of the code -/

instance steady_overwriteDead (start behind : Nat) : Keeps Steady (overwriteDead start behind) := by
  unfold overwriteDead
  infer_instance

instance steady_subtract (position : LabelId → Nat) (start : LabelId) (stop : Option LabelId) :
    Keeps Steady (modify fun m : Method =>
      { m with handlers := Handler.subtract position start stop m.handlers } : MethodM PUnit) := by
  refine ⟨fun u a v h => ?_⟩
  obtain rfl := h.modify
  refine ⟨Steps.refl u.1.1, rfl, rfl, fun _ hm => ⟨fun h hh => ?_, hm.locals, hm.localTypes⟩, id⟩
  obtain ⟨row, hrow, -, hindex, -⟩ := mem_subtract hh
  rw [hindex.1, hindex.2]
  exact hm.handlers row hrow

instance steady_blockEnd (b : Label) : Keeps Steady (blockEnd b) := by
  unfold blockEnd
  split <;> infer_instance

instance steady_replaceDead (block : LabelId) : Keeps Steady (replaceDead block) := by
  unfold replaceDead
  infer_instance

instance steady_writeFrames (blocks : List LabelId) (largest : Int) :
    Keeps Steady (writeFrames blocks largest) := by
  induction blocks generalizing largest with
  | nil => exact keeps_pure _
  | cons block blocks ih =>
    unfold writeFrames
    infer_instance

instance steady_computeFrames : Keeps Steady computeFrames := by
  refine keeps_then fun m => ?_
  split
  · infer_instance
  · refine keeps_then fun bound => keeps_then fun r => ?_
    split
    · unfold writeAllFrames
      infer_instance
    · infer_instance

instance steady_maxs (stack locals : Int) : Keeps Steady (maxs stack locals) := by
  unfold maxs
  refine keeps_then fun b => ?_
  split
  · refine keeps_then fun m => ?_
    split
    · infer_instance
    · refine keeps_then fun m => ?_
      split
      · infer_instance
      · refine keeps_then fun _ => keeps_then fun m =>
          keeps_then fun b => ?_
        split
        · refine keeps_then fun _ => keeps_then fun m =>
            keeps_then fun b => ?_
          split
          · refine keeps_then fun m => ?_
            split <;> infer_instance
          · infer_instance
        · infer_instance
  · infer_instance

theorem steady_take {e : CodeEvent LabelId} (h : e.Counted) : Keeps Steady (take e) := by
  cases e with
  | instruction i =>
    have hi := Instruction.steady_write h
    unfold take
    infer_instance
  | _ =>
    unfold take
    infer_instance

theorem steady_takeAll {es : List (CodeEvent LabelId)} (h : ∀ e ∈ es, e.Counted) :
    Keeps Steady (takeAll es) := by
  induction es with
  | nil => exact keeps_pure _
  | cons e es ih =>
    exact Keeps.bind (steady_take (h e List.mem_cons_self)) fun _ =>
      ih fun e' he' => h e' (List.mem_cons_of_mem e he')

end MethodM

end ClassAssembler
