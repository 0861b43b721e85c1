import ClassAssembler.Method.Widen
import ClassAssembler.Proofs.PoolCallSites
import ClassAssembler.Proofs.PoolOnward

/-!
# Work that leaves the code alone

Most of what happens while a method is written does not concern its code: frames are followed,
types are placed in tables, stack heights are counted.  Such work is quiet.  It lets the pool grow,
and it changes no label in what the label tells about the code: its position, the jumps that wait
for it, and the block behind it.  New labels tell nothing yet.

Quietness follows the structure of a computation, so it is found by instance search; a proof only
has to split what a computation distinguishes.
-/

namespace ClassAssembler

variable {p : Pool}

/-- What a label tells about the code. -/
structure Spot where
  position : Nat := 0
  isResolved : Bool := false
  pending : Array PendingJump := #[]

def Label.spot (l : Label) : Spot := ⟨l.position, l.isResolved, l.pending⟩

namespace Session

variable {l : LabelId} {s : Session}

/-- What a label tells about the code; one that does not exist yet tells nothing. -/
def spot (s : Session) (l : LabelId) : Spot := ((s.labels[l]?).map Label.spot).getD {}

def next (s : Session) (l : LabelId) : Option LabelId := (s.labels[l]?).bind Label.next

theorem spot_of_size_le (h : s.labels.size ≤ l) : s.spot l = {} := by
  simp [spot, Array.getElem?_eq_none h]

/-- A session without labels, frames and types: the class it belongs to. -/
def setting (s : Session) : Session := { s with types := {}, labels := #[], frames := #[] }

def addLabel (s : Session) : Session := { s with labels := s.labels.push {} }

def changeLabel (s : Session) (l : LabelId) (f : Label → Label) : Session :=
  { s with labels := s.labels.modify l f }

@[simp] theorem size_addLabel (s : Session) : s.addLabel.labels.size = s.labels.size + 1 := by
  simp [addLabel]

@[simp] theorem size_changeLabel (s : Session) (l : LabelId) (f : Label → Label) :
    (s.changeLabel l f).labels.size = s.labels.size := by
  simp [changeLabel]

theorem read_addLabel {β : Type} (read : Option Label → β) (h : read (some {}) = read none)
    (s : Session) (l : LabelId) : read s.addLabel.labels[l]? = read s.labels[l]? := by
  rw [addLabel, Array.getElem?_push]
  split
  · next hl => rw [h, Array.getElem?_eq_none (Nat.le_of_eq hl.symm)]
  · rfl

@[simp] theorem spot_addLabel (s : Session) (l : LabelId) : s.addLabel.spot l = s.spot l :=
  read_addLabel (fun b => (b.map Label.spot).getD {}) rfl s l

@[simp] theorem next_addLabel (s : Session) (l : LabelId) : s.addLabel.next l = s.next l :=
  read_addLabel (Option.bind · Label.next) rfl s l

theorem getElem?_changeLabel (s : Session) (l : LabelId) (f : Label → Label) (k : LabelId) :
    (s.changeLabel l f).labels[k]? = (s.labels[k]?).map fun b => if l = k then f b else b := by
  rw [changeLabel, Array.getElem?_modify]
  split
  · rfl
  · rw [Option.map_id']

theorem read_changeLabel {β : Type} (read : Option Label → β) {f : Label → Label} {g : β → β}
    (h : ∀ b, read (some (f b)) = g (read (some b))) (k : LabelId) :
    read (s.changeLabel l f).labels[k]? =
      if l = k ∧ k < s.labels.size then g (read s.labels[k]?) else read s.labels[k]? := by
  rw [getElem?_changeLabel]
  cases hk : s.labels[k]? with
  | none =>
    have hsize : ¬ k < s.labels.size := by
      simpa using hk
    simp [hsize]
  | some b =>
    have hsize : k < s.labels.size := (Array.getElem?_eq_some_iff.1 hk).1
    simp only [Option.map_some, hsize, and_true]
    split
    · exact h b
    · rfl

theorem spot_changeLabel {f : Label → Label} {g : Spot → Spot} (h : ∀ b, (f b).spot = g b.spot)
    (k : LabelId) :
    (s.changeLabel l f).spot k = if l = k ∧ k < s.labels.size then g (s.spot k) else s.spot k :=
  read_changeLabel (fun b => (b.map Label.spot).getD {}) h k

theorem next_changeLabel {f : Label → Label} {g : Option LabelId → Option LabelId}
    (h : ∀ b, (f b).next = g b.next) (k : LabelId) :
    (s.changeLabel l f).next k = if l = k ∧ k < s.labels.size then g (s.next k) else s.next k :=
  read_changeLabel (Option.bind · Label.next) h k

end Session

namespace TableType

theorem key_kind_ne (e : TableType) : e.key.kind ≠ TableKey.merged := by
  cases e <;> simp [key, TableKey.named, TableKey.fresh, TableKey.merged]

theorem key_isPlain (e : TableType) : e.key.IsPlain := by
  cases e <;> simp [key, TableKey.IsPlain, TableKey.named, TableKey.fresh, TableKey.bootstrap]

theorem agrees_key {e d : TableType} : e.key.agrees d.key ↔ e = d := by
  cases e <;> cases d <;>
    simp [key, TableKey.agrees, TableKey.hasText, TableKey.named, TableKey.fresh, Int32.toInt_inj,
      and_comm]

end TableType

namespace TypeTable

/-- The entries of types are those of the types at their places. -/
def Wf (t : TypeTable) : Prop :=
  ∀ x ∈ t.symbolTable.toList, x.1.kind = TableKey.merged ∨ ∃ e : TableType, x.1 = e.key ∧
    t.at? x.2 = some e

theorem wf_empty : ({} : TypeTable).Wf := by
  intro x hx
  rw [SymbolTable.toList_empty] at hx
  cases hx

theorem Wf.at? {t : TypeTable} {e : TableType} {i : Nat} (ht : t.Wf) (h : t.place? e = some i) :
    t.at? i = some e := by
  obtain ⟨k, hk, hagrees⟩ := SymbolTable.exists_of_find? h
  rcases ht _ hk with hmerged | ⟨d, rfl, hd⟩
  · exact absurd ((TableKey.kind_eq_of_agrees hagrees).trans hmerged) e.key_kind_ne
  · rw [TableType.agrees_key.1 hagrees]
    exact hd

/-- Types keep their places. -/
structure Grows (t u : TypeTable) : Prop where
  at? : ∀ {i e}, t.at? i = some e → u.at? i = some e
  wf : t.Wf → u.Wf

instance : Steps Grows where
  refl _ := ⟨id, id⟩
  trans h h' := ⟨fun he => h'.at? (h.at? he), fun ht => h'.wf (h.wf ht)⟩

theorem at?_push (entries : Array (Option TableType)) (table : SymbolTable) (e : TableType)
    (i : Nat) : (⟨entries.push (some e), table⟩ : TypeTable).at? i =
      if i = entries.size then some e else (entries[i]?).join := by
  rw [at?, Array.getElem?_push]
  split <;> rfl

theorem grows_add (t : TypeTable) (e : TableType) :
    t.Grows (t.add e).1 ∧ (t.Wf → (t.add e).1.at? (t.add e).2.1 = some e) := by
  unfold add
  split
  next i hi => exact ⟨Steps.refl t, fun ht => ht.at? hi⟩
  next hnone =>
    have hkeep {i : Nat} {d : TableType} (h : t.at? i = some d) :
        (⟨t.entries.push (some e), t.symbolTable.put e.key t.entries.size (t.entries.size + 1)⟩ :
          TypeTable).at? i = some d := by
      rw [at?_push, if_neg]
      · exact h
      · rintro rfl
        simp [at?] at h
    refine ⟨⟨hkeep, fun ht x hx => ?_⟩, fun _ => ?_⟩
    · rcases SymbolTable.mem_put.1 hx with rfl | hx
      · exact .inr ⟨e, rfl, by rw [at?_push, if_pos rfl]⟩
      · refine (ht x hx).imp_right ?_
        rintro ⟨d, hd, hat⟩
        exact ⟨d, hd, hkeep hat⟩
    · rw [at?_push, if_pos rfl]

theorem grows_remember (t : TypeTable) (i j k : Nat) : t.Grows (t.remember i j k) := by
  refine ⟨id, fun ht x hx => ?_⟩
  rcases SymbolTable.mem_put.1 hx with rfl | hx
  · exact .inl rfl
  · exact ht x hx

end TypeTable

/-- A pool stays well formed and is only extended, whether or not arguments are counted. -/
structure Pool.Grows (p q : Pool) : Prop where
  onward : p.Onward q
  wf : ∀ {counted : Prop}, p.Wf { counted } → q.Wf { counted } ∧ p.Extends q

instance {q : Pool} :
    CoeFun (p.Grows q) fun _ => ∀ {counted : Prop}, p.Wf { counted } → q.Wf { counted } ∧
    p.Extends q :=
  ⟨Pool.Grows.wf⟩

/-- Labels keep what they tell about the code, and new ones tell nothing. -/
structure Quiet (u v : Pool × Session) : Prop where
  grows : u.1.Grows v.1
  size : u.2.labels.size ≤ v.2.labels.size
  spot : ∀ l, v.2.spot l = u.2.spot l
  next : ∀ l, v.2.next l = u.2.next l
  setting : v.2.setting = u.2.setting
  types : u.2.types.Grows v.2.types

instance : Steps Pool.Grows where
  refl p := ⟨Steps.refl p, fun hp => ⟨hp, .refl p⟩⟩
  trans h h' := by
    refine ⟨Steps.trans h.onward h'.onward, fun hp => ?_⟩
    obtain ⟨hq, hpq⟩ := h hp
    obtain ⟨hr, hqr⟩ := h' hq
    exact ⟨hr, hpq.trans hqr⟩

/-- A pool is only extended, by bootstrap methods with any number of arguments. -/
structure Pool.Expands (p q : Pool) : Prop where
  onward : p.Onward q
  wf : p.Wf { counted := False } → q.Wf { counted := False }

instance : Steps Pool.Expands where
  refl p := ⟨Steps.refl p, id⟩
  trans h h' := ⟨Steps.trans h.onward h'.onward, fun hp => h'.wf (h.wf hp)⟩

theorem Pool.Grows.expands {q : Pool} (h : p.Grows q) : p.Expands q :=
  ⟨h.onward, fun hp => (h hp).1⟩

instance : Steps Quiet where
  refl u := ⟨Steps.refl u.1, Nat.le_refl _, fun _ => rfl, fun _ => rfl, rfl,
    Steps.refl u.2.types⟩
  trans h h' :=
    ⟨Steps.trans h.grows h'.grows, Nat.le_trans h.size h'.size,
      fun l => (h'.spot l).trans (h.spot l), fun l => (h'.next l).trans (h.next l),
      h'.setting.trans h.setting, Steps.trans h.types h'.types⟩

/-- Work on a frame that keeps what the labels tell about the code. -/
def Frame.SameCode (u v : (Pool × Session) × Frame) : Prop := Quiet u.1 v.1

instance : Steps Frame.SameCode where
  refl u := Steps.refl (R := Quiet) u.1
  trans h h' := Steps.trans (R := Quiet) h h'

/-! ## The layers -/

section Layers

variable {α : Type}

instance quiet_lift_session {n : Type → Type} [MonadLiftT n PoolM] {x : n α}
    [hx : Keeps Pool.Grows (liftM x : PoolM α)] :
    Keeps Quiet (liftM x : SessionM α) :=
  keeps_lift hx fun _ _ u h =>
    ⟨h, Nat.le_refl _, fun _ => rfl, fun _ => rfl, rfl, Steps.refl u.types⟩

instance quiet_lift_frame {n : Type → Type} [MonadLiftT n SessionM] {x : n α}
    [hx : Keeps Quiet (liftM x : SessionM α)] :
    Keeps Frame.SameCode (liftM x : FrameM α) :=
  keeps_lift hx fun _ _ _ h => h

instance quiet_run_frame {x : FrameM α} [hx : Keeps Frame.SameCode x] (f : Frame) :
    Keeps Quiet (x.run f) :=
  ⟨fun _ _ _ h => hx.run _ _ _ (ends_run.1 h)⟩

instance quiet_frame_modify (f : Frame → Frame) :
    Keeps Frame.SameCode (modify f : FrameM PUnit) := by
  refine ⟨fun u a v h => ?_⟩
  obtain rfl := h.modify
  exact Steps.refl (R := Quiet) u.1

instance quiet_frame_modifyGet (f : Frame → α × Frame) :
    Keeps Frame.SameCode (modifyGet f : FrameM α) := by
  refine ⟨fun u a v h => ?_⟩
  obtain ⟨-, rfl⟩ := ends_modifyGet.1 h
  exact Steps.refl (R := Quiet) u.1

instance quiet_frame_set (f : Frame) : Keeps Frame.SameCode (set f : FrameM PUnit) := by
  refine ⟨fun u a v h => ?_⟩
  obtain rfl := ends_set.1 h
  exact Steps.refl (R := Quiet) u.1

end Layers

/-! ## Changes of sessions and labels -/

/-- A change of a session that leaves its labels and its types alone. -/
class Session.Idle (f : Session → Session) : Prop where
  labels : ∀ s, (f s).labels = s.labels
  setting : ∀ s, (f s).setting = s.setting
  types : ∀ s : Session, s.types.Grows (f s).types

instance (frames : Session → Array Frame) : Session.Idle fun s => { s with frames := frames s } :=
  ⟨fun _ => rfl, fun _ => rfl, fun s => Steps.refl s.types⟩

instance (i j k : Nat) : Session.Idle fun s => { s with types := s.types.remember i j k } :=
  ⟨fun _ => rfl, fun _ => rfl, fun s => s.types.grows_remember i j k⟩

theorem Session.sameCode_of_labels {s t : Session} (h : t.labels = s.labels)
    (hsetting : t.setting = s.setting) (htypes : s.types.Grows t.types) : Quiet (p, s) (p, t) := by
  refine ⟨Steps.refl p, Nat.le_of_eq (congrArg Array.size h.symm), fun l => ?_, fun l => ?_,
    hsetting, htypes⟩
  · simp only [Session.spot, h]
  · simp only [Session.next, h]

instance quiet_session_modify (f : Session → Session) [hf : Session.Idle f] :
    Keeps Quiet (modify f : SessionM PUnit) := by
  refine ⟨fun u a v h => ?_⟩
  obtain rfl := h.modify
  exact Session.sameCode_of_labels (hf.labels u.2) (hf.setting u.2) (hf.types u.2)

/-- A change of a label that leaves alone what it tells about the code. -/
class Label.Idle (f : Label → Label) : Prop where
  spot : ∀ l, (f l).spot = l.spot
  next : ∀ l, (f l).next = l.next

instance (inputHeight peak : Label → Int) (frame : Label → Option FrameId)
    (successors : Label → List Edge) (isTarget needsFrame isReachable isQueued isPushed
      callsSubroutine returnsFromSubroutine startsSubroutine isInSubroutine isReturnLinked :
        Label → Bool) (subroutines : Label → Nat) :
    Label.Idle fun l =>
      { l with
        inputHeight := inputHeight l, peak := peak l, frame := frame l,
        successors := successors l, isTarget := isTarget l, needsFrame := needsFrame l,
        isReachable := isReachable l, isQueued := isQueued l, isPushed := isPushed l,
        callsSubroutine := callsSubroutine l, returnsFromSubroutine := returnsFromSubroutine l,
        startsSubroutine := startsSubroutine l, isInSubroutine := isInSubroutine l,
        isReturnLinked := isReturnLinked l, subroutines := subroutines l } :=
  ⟨fun _ => rfl, fun _ => rfl⟩

namespace SessionM

theorem ends_modifyLabel {l : LabelId} {f : Label → Label} {u v : Pool × Session} {a : Unit} :
    Ends (modifyLabel l f) u a v ↔ (u.1, u.2.changeLabel l f) = v :=
  ends_modify

instance quiet_modifyLabel (l : LabelId) (f : Label → Label) [hf : Label.Idle f] :
    Keeps Quiet (modifyLabel l f) := by
  refine ⟨fun u a v h => ?_⟩
  obtain rfl := ends_modifyLabel.1 h
  refine ⟨Steps.refl u.1, by simp, fun k => ?_, fun k => ?_, rfl, Steps.refl _⟩
  · rw [Session.spot_changeLabel (g := id) hf.spot]
    simp
  · rw [Session.next_changeLabel (g := id) hf.next]
    simp

end SessionM

/-! ## The pool -/

namespace PoolM

theorem quiet_of_registers {α : Type} {x : PoolM α} [hx : Keeps Pool.Onward x]
    (h : ∀ {counted : Prop} p a q, p.Wf { counted } → Ends x p a q →
      q.Wf { counted } ∧ p.Extends q) : Keeps Pool.Grows x :=
  ⟨fun p a q e => ⟨hx.run p a q e, fun hp => h p a q hp e⟩⟩

instance quiet_fail (cause : Cause) [cause.Early] (op : String) (args : List Value) :
    Keeps Pool.Grows (fail cause op args) := by
  refine quiet_of_registers fun p a q hp h => ?_
  obtain rfl := ends_fail.1 h
  exact ⟨hp.recordFailure _, Pool.extends_recordFailure p _⟩

instance quiet_hasFailed : Keeps Pool.Grows hasFailed := by
  unfold hasFailed
  infer_instance

theorem Interns.quiet {c : Constant} {x : PoolM Nat} [Keeps Pool.Onward x] (h : Interns c x) :
    Keeps Pool.Grows x := by
  refine quiet_of_registers fun p i q hp e => ?_
  obtain ⟨hreg, -⟩ := h p i q hp e
  exact ⟨hreg.wf, hreg.extend⟩

instance quiet_utf8 (t : Text) : Keeps Pool.Grows (utf8 t) := (interns_utf8 t).quiet

instance quiet_classRef (name : Text) :
    Keeps Pool.Grows (classRef name) := (interns_classRef name).quiet

instance quiet_fieldRef (owner name desc : Text) : Keeps Pool.Grows (fieldRef owner name desc) :=
  (interns_fieldRef owner name desc).quiet

instance quiet_methodRef (owner name desc : Text) (ofInterface : Bool) :
    Keeps Pool.Grows (methodRef owner name desc ofInterface) :=
  (interns_methodRef owner name desc ofInterface).quiet

instance quiet_valueEntry (v : Value) : Keeps Pool.Grows (valueEntry v) := by
  refine quiet_of_registers fun p o q hp e => ?_
  have h := (ends_valueEntry hp e).registers
  exact ⟨h.wf, h.extend⟩

instance expands_dynamicEntry (name desc : Text) (method : Handle) (args : List Value) :
    Keeps Pool.Expands (dynamicEntry name desc method args) := by
  refine ⟨fun p r q e => ⟨e.keeps, fun hp => ?_⟩⟩
  exact (numbers_dynamicEntry hp False.elim (i := r.1) (c := r.2) e).1.wf

theorem quiet_dynamicEntry (name desc : Text) (method : Handle) {args : List Value}
    (hargs : args.length < 65536) : Keeps Pool.Grows (dynamicEntry name desc method args) := by
  refine quiet_of_registers fun p r q hp e => ?_
  obtain ⟨h, -⟩ := numbers_dynamicEntry hp (fun _ => hargs) (i := r.1) (c := r.2) e
  exact ⟨h.wf, h.extend⟩

end PoolM

/-! ## The session -/

namespace SessionM

variable {u v : Pool × Session}

theorem ends_newLabel {l : LabelId} :
    Ends newLabel u l v ↔ u.2.labels.size = l ∧ (u.1, u.2.addLabel) = v := by
  simp only [newLabel, ends_bind, ends_get, ends_modify, ends_pure]
  constructor
  · rintro ⟨_, _, ⟨rfl, rfl⟩, _, _, rfl, rfl, rfl⟩
    exact ⟨rfl, rfl⟩
  · rintro ⟨rfl, rfl⟩
    exact ⟨_, _, ⟨rfl, rfl⟩, ⟨⟩, _, rfl, rfl, rfl⟩

theorem ends_label {l : LabelId} {b : Label} (h : Ends (label l) u b v) :
    u.2.labels[l]? = some b ∧ u = v := by
  simp only [label, ends_bind, ends_get] at h
  obtain ⟨_, _, ⟨rfl, rfl⟩, h⟩ := h
  split at h
  · obtain ⟨rfl, rfl⟩ := h.pure
    exact ⟨by assumption, rfl⟩
  · exact absurd h ends_throw

theorem ends_frame {f : FrameId} {x : Frame} (h : Ends (frame f) u x v) :
    u.2.frames[f]? = some x ∧ u = v := by
  simp only [frame, ends_bind, ends_get] at h
  obtain ⟨_, _, ⟨rfl, rfl⟩, h⟩ := h
  split at h
  · obtain ⟨rfl, rfl⟩ := h.pure
    exact ⟨by assumption, rfl⟩
  · exact absurd h ends_throw

instance quiet_newLabel : Keeps Quiet newLabel := by
  refine ⟨fun u a v h => ?_⟩
  obtain ⟨-, rfl⟩ := ends_newLabel.1 h
  exact ⟨Steps.refl u.1, by simp, by simp, by simp, rfl, Steps.refl _⟩

instance quiet_label (l : LabelId) : Keeps Quiet (label l) := by
  refine keeps_then fun s => ?_
  split <;> infer_instance

instance quiet_newFrame (l : LabelId) : Keeps Quiet (newFrame l) := by
  unfold newFrame
  infer_instance

instance quiet_frame (f : FrameId) : Keeps Quiet (frame f) := by
  refine keeps_then fun s => ?_
  split <;> infer_instance

instance quiet_frameOf (l : LabelId) : Keeps Quiet (frameOf l) := by
  refine keeps_then fun b => ?_
  split <;> infer_instance

instance quiet_onFrame {α : Type} (f : FrameId) (act : FrameM α) [Keeps Frame.SameCode act] :
    Keeps Quiet (onFrame f act) := by
  refine keeps_then fun current => keeps_then fun _ =>
    keeps_then fun r => ?_
  infer_instance

instance quiet_blockOf (l : LabelId) : Keeps Quiet (blockOf l) := by
  refine keeps_then fun b => ?_
  split <;> infer_instance

instance quiet_place (e : TableType) : Keeps Quiet (place e) := by
  refine Keeps.bind ⟨fun u a v h => ?_⟩ fun r => ?_
  · obtain ⟨-, rfl⟩ := ends_modifyGet.1 h
    exact Session.sameCode_of_labels rfl rfl (u.2.types.grows_add e).1
  · dsimp only
    split <;> infer_instance

instance quiet_placeOf (name : Text) : Keeps Quiet (placeOf name) := quiet_place _

instance quiet_placeOfFresh (name : Text) (offset : Int) : Keeps Quiet (placeOfFresh name offset) :=
  quiet_place _

instance quiet_typeAt (i : Nat) : Keeps Quiet (typeAt i) := by
  refine keeps_then fun s => ?_
  split <;> infer_instance

instance quiet_objectType (name : Text) : Keeps Quiet (objectType name) := by
  unfold objectType
  infer_instance

instance quiet_commonSuper (a b : Text) : Keeps Quiet (commonSuper a b) := by
  unfold commonSuper
  split
  · infer_instance
  · split
    · infer_instance
    · refine keeps_then fun s => ?_
      split <;> infer_instance

instance quiet_mergedPlace (i j : Nat) : Keeps Quiet (mergedPlace i j) := by
  refine keeps_then fun s => ?_
  split <;> infer_instance

end SessionM

end ClassAssembler
