import ClassAssembler.Proofs.FrameRows

/-!
# The analysis of a method leaves its code alone

While a method is written, its blocks are analysed along with it.  That work is calm: it changes
neither the code of the method nor its tables, and of the labels there were it changes none in what
it tells about the code.  A new label may be placed at the end of the code, where a block ends, and
blocks are chained to one another; the labels in the chain are those that belong to the method.
-/

namespace ClassAssembler

set_option synthInstance.maxSize 400

namespace Method

/-- A method without what the analysis of its blocks finds out. -/
def core (m : Method) : Method :=
  { m with
    maxStack := 0, maxLocals := 0, frameLocals := 0, frameCount := 0, stackMap := none,
    previousOffset := 0, previousFrame := none, lastFrameOffset := none, lastBlock := none,
    currentBlock := none, subroutineCount := 0, height := 0, peak := 0 }

def LastIn (own : LabelId → Prop) (m : Method) : Prop := ∀ l, m.lastBlock = some l → own l

/-- Work that leaves the code of a method alone; `own` are the labels of the method. -/
structure Calm (own : LabelId → Prop) (u v : (Pool × Session) × Method) : Prop where
  grows : u.1.1.Grows v.1.1
  size : u.1.2.labels.size ≤ v.1.2.labels.size
  spot : ∀ l, v.1.2.spot l = u.1.2.spot l ∨
    u.1.2.labels.size ≤ l ∧ v.1.2.spot l = ⟨u.2.code.size, true, #[]⟩
  next : (∀ n, u.1.2.labels.size ≤ n → own n) → u.2.LastIn own →
    v.2.LastIn own ∧ ∀ l n, v.1.2.next l = some n → u.1.2.next l = some n ∨ own l ∧ own n
  core : v.2.core = u.2.core
  setting : v.1.2.setting = u.1.2.setting
  mapped : u.2.Mapped u.1.1 → v.2.Mapped v.1.1

/-- Work on the stack map of a method. -/
structure Drafts (u v : (Pool × Session) × Method) : Prop where
  same : Quiet u.1 v.1
  core : v.2.core = u.2.core
  lastBlock : v.2.lastBlock = u.2.lastBlock
  lastOffset : v.2.lastFrameOffset = u.2.lastFrameOffset

instance : Steps Drafts where
  refl u := ⟨Steps.refl u.1, rfl, rfl, rfl⟩
  trans h h' := ⟨Steps.trans h.same h'.same, h'.core.trans h.core,
    h'.lastBlock.trans h.lastBlock, h'.lastOffset.trans h.lastOffset⟩

/-- A change of a method that only concerns the analysis of its blocks, and not their order. -/
class Drafting (f : Method → Method) : Prop where
  core : ∀ m, (f m).core = m.core
  lastBlock : ∀ m, (f m).lastBlock = m.lastBlock
  lastOffset : ∀ m, (f m).lastFrameOffset = m.lastFrameOffset

instance (maxStack maxLocals frameLocals previousOffset : Method → Int) (frameCount : Method → Nat)
    (stackMap : Method → Option Buffer) (previousFrame : Method → Option MapFrame) :
    Drafting fun m =>
      { m with
        maxStack := maxStack m, maxLocals := maxLocals m, frameLocals := frameLocals m,
        previousOffset := previousOffset m, frameCount := frameCount m, stackMap := stackMap m,
        previousFrame := previousFrame m } :=
  ⟨fun _ => rfl, fun _ => rfl, fun _ => rfl⟩

/-- A change that leaves the stack map alone as well. -/
class Idle (f : Method → Method) : Prop where
  core : ∀ m, (f m).core = m.core
  lastBlock : ∀ m, (f m).lastBlock = m.lastBlock
  mapping : ∀ m, (f m).mapping = m.mapping

instance (maxStack maxLocals frameLocals previousOffset height peak : Method → Int)
    (subroutineCount : Method → Nat) (previousFrame : Method → Option MapFrame)
    (lastFrameOffset : Method → Option Nat) (currentBlock : Method → Option LabelId) :
    Idle fun m =>
      { m with
        maxStack := maxStack m, maxLocals := maxLocals m, frameLocals := frameLocals m,
        previousOffset := previousOffset m, height := height m, peak := peak m,
        subroutineCount := subroutineCount m, previousFrame := previousFrame m,
        lastFrameOffset := lastFrameOffset m, currentBlock := currentBlock m } :=
  ⟨fun _ => rfl, fun _ => rfl, fun _ => rfl⟩

theorem Idle.ite {c : Method → Prop} [∀ m, Decidable (c m)] {f g : Method → Method}
    (hf : Idle f) (hg : Idle g) : Idle fun m => if c m then f m else g m := by
  refine ⟨fun m => ?_, fun m => ?_, fun m => ?_⟩
  · split
    · exact hf.core m
    · exact hg.core m
  · split
    · exact hf.lastBlock m
    · exact hg.lastBlock m
  · split
    · exact hf.mapping m
    · exact hg.mapping m

theorem code_of_core {m m' : Method} (h : m'.core = m.core) : m'.code = m.code :=
  (congrArg Method.code h : m'.core.code = m.core.code)

end Method

section Calm

variable {own : LabelId → Prop} {α : Type}

theorem Quiet.calm {u v : Pool × Session} (h : Quiet u v) {m m' : Method}
    (hm : m'.core = m.core) (hlast : m'.lastBlock = m.lastBlock)
    (hmapped : m.Mapped u.1 → m'.Mapped v.1) : Method.Calm own (u, m) (v, m') :=
  ⟨h.grows, h.size, fun l => .inl (h.spot l),
    fun _ hown => ⟨fun l hl => hown l (hlast ▸ hl), fun l n hn =>
      .inl (by rw [← h.next l]; exact hn)⟩, hm, h.setting, hmapped⟩

theorem Method.Drafts.calm {u v : (Pool × Session) × Method} (h : Method.Drafts u v)
    (hmapped : u.2.Mapped u.1.1 → v.2.Mapped v.1.1) : Method.Calm own u v :=
  h.same.calm h.core h.lastBlock hmapped

instance : Steps (Method.Calm own) where
  refl u := Quiet.calm (Steps.refl u.1) rfl rfl id
  trans {u v w} h h' := by
    have hcode : v.2.code = u.2.code := Method.code_of_core h.core
    refine ⟨Steps.trans h.grows h'.grows, Nat.le_trans h.size h'.size, fun l => ?_,
      fun hown hlast => ?_, h'.core.trans h.core,
      h'.setting.trans h.setting, fun hmapped => h'.mapped (h.mapped hmapped)⟩
    · rcases h'.spot l with hw | ⟨hl, hw⟩
      · rcases h.spot l with hv | ⟨hl, hv⟩
        · exact .inl (hw.trans hv)
        · exact .inr ⟨hl, hw.trans hv⟩
      · rw [hcode] at hw
        exact .inr ⟨Nat.le_trans h.size hl, hw⟩
    · obtain ⟨hlast, hnext⟩ := h.next hown hlast
      obtain ⟨hlast', hnext'⟩ := h'.next (fun n hn => hown n (Nat.le_trans h.size hn)) hlast
      exact ⟨hlast', fun l n hn => (hnext' l n hn).elim (hnext l n) .inr⟩

theorem Method.Calm.of_new {u v : (Pool × Session) × Method}
    (h : Method.Calm (fun n => own n ∨ u.1.2.labels.size ≤ n) u v) : Method.Calm own u v := by
  refine ⟨h.grows, h.size, h.spot, fun hown hlast => ?_, h.core, h.setting, h.mapped⟩
  obtain ⟨hlast', hnext⟩ := h.next (fun n hn => .inr hn) fun l hl => .inl (hlast l hl)
  have hall : ∀ n, own n ∨ u.1.2.labels.size ≤ n → own n := fun n hn => hn.elim id (hown n)
  exact ⟨fun l hl => hall l (hlast' l hl),
    fun l n hn => (hnext l n hn).imp_right fun h => ⟨hall l h.1, hall n h.2⟩⟩

instance calm_lift {n : Type → Type} [MonadLiftT n SessionM] {x : n α}
    [hx : Keeps Quiet (liftM x : SessionM α)] :
    Keeps (Method.Calm own) (liftM x : MethodM α) :=
  keeps_lift hx fun _ _ _ h => h.calm rfl rfl fun hm => hm.congr h.grows.onward rfl

instance calm_modify (f : Method → Method) [hf : Method.Idle f] :
    Keeps (Method.Calm own) (modify f : MethodM PUnit) := by
  refine ⟨fun u a v h => ?_⟩
  obtain rfl := h.modify
  exact Quiet.calm (Steps.refl u.1) (hf.core u.2) (hf.lastBlock u.2) fun hm =>
    hm.congr (Steps.refl u.1.1) (hf.mapping u.2)

instance calm_getThe_session : Keeps (Method.Calm own) (getThe Session : MethodM Session) := by
  refine ⟨fun u a v h => ?_⟩
  simp only [ends_getThe_lift, ends_getThe] at h
  obtain ⟨⟨-, h₁⟩, h₂⟩ := h
  obtain rfl : u = v := Prod.ext h₁ h₂
  exact Steps.refl u

end Calm

/-! ## Blocks -/

namespace MethodM

variable {own : LabelId → Prop}

variable {u v : (Pool × Session) × Method} {l : LabelId}

theorem ends_label_lift {b : Label} (h : Ends (liftM (SessionM.label l) : MethodM Label) u b v) :
    u.1.2.labels[l]? = some b ∧ u = v := by
  obtain ⟨h, hm⟩ := h.lift
  obtain ⟨hb, hs⟩ := SessionM.ends_label h
  exact ⟨hb, Prod.ext hs hm⟩

theorem calm_link {b : LabelId} (hl : own l) (hb : u.2.lastBlock = some b)
    (h : Ends (liftM (SessionM.modifyLabel b fun b => { b with next := some l }) : MethodM Unit) u
      () v) :
    Method.Calm own u v ∧ v.2 = u.2 := by
  obtain ⟨u, m⟩ := u
  obtain ⟨v, m'⟩ := v
  obtain ⟨h, rfl⟩ := h.lift
  obtain rfl := SessionM.ends_modifyLabel.1 h
  refine ⟨⟨Steps.refl u.1, by simp, fun k => .inl ?_, fun _ hlast => ⟨hlast, fun k n hn => ?_⟩,
    rfl, rfl, fun hmapped => hmapped⟩, rfl⟩
  · rw [Session.spot_changeLabel (g := id) (by intro; rfl)]
    simp
  · rw [Session.next_changeLabel (g := fun _ => some l) (by intro; rfl)] at hn
    split at hn
    next hk =>
      cases hn
      exact .inr ⟨hlast k (hk.1 ▸ hb), hl⟩
    next => exact .inl hn

theorem calm_advance {l : LabelId} (hl : own l) {f : Method → Method}
    (hcore : ∀ m, (f m).core = m.core) (hlast : ∀ m, (f m).lastBlock = some l)
    (hmap : ∀ m, (f m).mapping = m.mapping) :
    Keeps (Method.Calm own) (modify f : MethodM PUnit) := by
  refine ⟨fun u a v h => ?_⟩
  obtain rfl := h.modify
  refine ⟨Steps.refl u.1.1, Nat.le_refl _, fun _ => .inl rfl, fun _ _ => ⟨fun k hk => ?_,
    fun k n hn => .inl hn⟩, hcore u.2, rfl,
    fun hmapped => hmapped.congr (Steps.refl u.1.1) (hmap u.2)⟩
  obtain rfl : l = k := Option.some.inj ((hlast u.2).symm.trans hk)
  exact hl

instance calm_codeSize : Keeps (Method.Calm own) codeSize := by
  unfold codeSize
  infer_instance

instance calm_needLocals (n : Int) : Keeps (Method.Calm own) (needLocals n) := by
  have hidle : Method.Idle fun m : Method => if n > m.maxLocals then { m with maxLocals := n }
      else m :=
    .ite inferInstance ⟨fun _ => rfl, fun _ => rfl, fun _ => rfl⟩
  exact calm_modify _

instance calm_changeHeight (delta : Int) : Keeps (Method.Calm own) (changeHeight delta) := by
  unfold changeHeight
  infer_instance

instance calm_stackChange (op : Int) : Keeps (Method.Calm own) (stackChange op) := by
  unfold stackChange
  split <;> infer_instance

instance calm_follow (block : LabelId) (op arg : Int) (c : Option Constant) :
    Keeps (Method.Calm own) (follow block op arg c) := by
  unfold follow
  infer_instance

instance calm_account (op arg : Int) (c : Option Constant) (heights : LabelId → MethodM Unit)
    [∀ l, Keeps (Method.Calm own) (heights l)] :
    Keeps (Method.Calm own) (account op arg c heights) := by
  refine keeps_then fun m => ?_
  split <;> infer_instance

instance quiet_giveFrame (l : LabelId) : Keeps Quiet (giveFrame l) := by
  unfold giveFrame
  infer_instance

theorem calm_chainBlock (hl : own l) (position : Nat) :
    Keeps (Method.Calm own) (chainBlock l position) := by
  have hadvance := calm_advance hl
    (f := fun m => { m with currentBlock := some l, lastBlock := some l })
    (fun _ => rfl) (fun _ => rfl) fun _ => rfl
  refine ⟨fun u a v e => ?_⟩
  replace e := ends_get_bind.1 e
  split at e
  · exact e.keeps
  next last hlast =>
    obtain ⟨b, w, h, e⟩ := e.bind
    obtain ⟨-, rfl⟩ := ends_label_lift h
    split at e
    · exact (inferInstance : Keeps (Method.Calm own) _).run _ _ _ e
    · obtain ⟨_, w, h, e⟩ := e.bind
      exact Steps.trans (calm_link hl hlast h).1 e.keeps

theorem calm_beginFrameBlock (hl : own l) : Keeps (Method.Calm own) (beginFrameBlock l) := by
  have hchain := calm_chainBlock hl
  refine keeps_then fun b => keeps_then fun m => ?_
  split <;> infer_instance

theorem calm_beginHeightBlock (hl : own l) : Keeps (Method.Calm own) (beginHeightBlock l) := by
  have hadvance := calm_advance hl
    (f := fun m => { m with currentBlock := some l, lastBlock := some l, height := 0, peak := 0 })
    (fun _ => rfl) (fun _ => rfl) fun _ => rfl
  refine ⟨fun u a v e => ?_⟩
  replace e := ends_get_bind.1 e
  -- the last block is read before the current one is changed
  have hlink : ∀ (w : (Pool × Session) × Method) (last : LabelId), w.2 = u.2 →
      u.2.lastBlock = some last → Ends (do
        SessionM.modifyLabel last fun b => { b with next := some l }
        modify fun m =>
          { m with currentBlock := some l, lastBlock := some l, height := 0, peak := 0 } :
          MethodM Unit) w a v → Method.Calm own w v := by
    intro w last hw hlast e
    obtain ⟨_, w', h, e⟩ := e.bind
    exact Steps.trans (calm_link hl (hw ▸ hlast) h).1 e.keeps
  cases hlast : u.2.lastBlock with
  | none =>
    rw [hlast] at e
    cases hblock : u.2.currentBlock with
    | none =>
      rw [hblock] at e
      exact hadvance.run _ _ _ e
    | some block =>
      rw [hblock] at e
      obtain ⟨_, w, h, e⟩ := e.bind
      obtain ⟨_, w', h', e⟩ := e.bind
      have hcalm : Method.Calm own u w := h.keeps
      have hcalm' : Method.Calm own w w' := h'.keeps
      exact Steps.trans hcalm (Steps.trans hcalm' (hadvance.run _ _ _ e))
  | some last =>
    rw [hlast] at e
    cases hblock : u.2.currentBlock with
    | none =>
      rw [hblock] at e
      exact hlink u last rfl hlast e
    | some block =>
      rw [hblock] at e
      obtain ⟨_, w, h, e⟩ := e.bind
      obtain ⟨_, w', h', e⟩ := e.bind
      have hcalm : Method.Calm own u w := h.keeps
      have hcalm' : Method.Calm own w w' := h'.keeps
      exact Steps.trans hcalm (Steps.trans hcalm'
        (hlink w' last (h'.lift.2.symm.trans h.lift.2.symm) hlast e))

instance calm_continueInserted (l : LabelId) : Keeps (Method.Calm own) (continueInserted l) := by
  refine keeps_then fun m => ?_
  split
  · infer_instance
  · refine keeps_then fun b => ?_
    split <;> infer_instance

theorem ends_codeSize {n : Nat} : Ends codeSize u n v ↔ u.2.code.size = n ∧ u = v := by
  simp only [codeSize, ends_bind, ends_get, ends_pure]
  constructor
  · rintro ⟨_, _, ⟨rfl, rfl⟩, rfl, rfl⟩
    exact ⟨rfl, rfl⟩
  · rintro ⟨rfl, rfl⟩
    exact ⟨_, _, ⟨rfl, rfl⟩, rfl, rfl⟩

theorem ends_placeNewBlock (own : LabelId → Prop) (h : Ends placeNewBlock u l v) :
    u.1.2.labels.size = l ∧ Method.Calm own u v := by
  obtain ⟨⟨p, s⟩, m⟩ := u
  simp only [placeNewBlock, ends_bind, ends_pure] at h
  obtain ⟨l', ⟨u₁, m₁⟩, h₁, f, ⟨u₂, m₂⟩, h₂, position, _, h₃, _, ⟨u₄, m₄⟩, h₄, rfl, rfl⟩ := h
  obtain ⟨h₁, rfl⟩ := h₁.lift
  obtain ⟨rfl, rfl⟩ := SessionM.ends_newLabel.1 h₁
  obtain ⟨h₂, rfl⟩ := h₂.lift
  obtain ⟨rfl, rfl⟩ := ends_codeSize.1 h₃
  obtain ⟨h₄, rfl⟩ := h₄.lift
  obtain rfl := SessionM.ends_modifyLabel.1 h₄
  have hframe : Quiet (p, s.addLabel) u₂ := h₂.keeps
  have hspot (k : LabelId) : u₂.2.spot k = s.spot k := by
    rw [hframe.spot, Session.spot_addLabel]
  have hsize : s.labels.size + 1 ≤ u₂.2.labels.size := by
    simpa using hframe.size
  refine ⟨rfl, hframe.grows, ?_, fun k => ?_, fun _ hlast => ⟨hlast, fun k n hn => .inl ?_⟩, rfl,
    hframe.setting, fun hmapped => hmapped.congr hframe.grows.onward rfl⟩
  · rw [Session.size_changeLabel]
    exact Nat.le_of_succ_le hsize
  · rw [Session.spot_changeLabel
      (g := fun t => { t with isResolved := true, position := m.code.size }) (by intro; rfl), hspot]
    split
    · next hk =>
      obtain ⟨rfl, -⟩ := hk
      rw [Session.spot_of_size_le (Nat.le_refl _)]
      exact .inr ⟨Nat.le_refl _, rfl⟩
    · exact .inl rfl
  · rw [Session.next_changeLabel (g := id) (by intro; rfl), hframe.next,
      Session.next_addLabel] at hn
    simpa using hn

instance calm_chainNewBlock : Keeps (Method.Calm own) chainNewBlock := by
  refine ⟨fun u a v h => .of_new ?_⟩
  obtain ⟨l, w, h₁, h⟩ := h.bind
  obtain ⟨rfl, hcalm⟩ := ends_placeNewBlock (fun n => own n ∨ u.1.2.labels.size ≤ n) h₁
  have hl : own u.1.2.labels.size ∨ u.1.2.labels.size ≤ u.1.2.labels.size := .inr (Nat.le_refl _)
  have hadvance := @calm_advance (fun n => own n ∨ u.1.2.labels.size ≤ n) _ hl
    (fun m => { m with lastBlock := some u.1.2.labels.size }) (fun _ => rfl) (fun _ => rfl)
    fun _ => rfl
  have e := ends_get_bind.1 h
  split at e
  · exact absurd e.bind.choose_spec.choose_spec.1 ends_throw
  next last hlast =>
    obtain ⟨_, w', h, e⟩ := e.bind
    exact Steps.trans hcalm
      (Steps.trans (calm_link hl hlast h).1 e.keeps)

instance calm_endBlock (block : LabelId) : Keeps (Method.Calm own) (endBlock block) := by
  unfold endBlock
  infer_instance

/-! ## Instructions -/

instance calm_accountJump (op : Int) (target : LabelId) :
    Keeps (Method.Calm own) (accountJump op target) := by
  refine keeps_then fun m => keeps_then fun m' => ?_
  split <;> infer_instance

instance calm_accountSwitch (targets : List LabelId) :
    Keeps (Method.Calm own) (accountSwitch targets) := by
  refine keeps_then fun m => ?_
  split
  · refine keeps_then fun m' => ?_
    dsimp only
    split <;> infer_instance
  · infer_instance

/-! ## Stack maps -/

section Drafts

open Method

instance drafts_lift {α : Type} {n : Type → Type} [MonadLiftT n SessionM] {x : n α}
    [hx : Keeps Quiet (liftM x : SessionM α)] : Keeps Drafts (liftM x : MethodM α) :=
  keeps_lift hx fun _ _ _ h => ⟨h, rfl, rfl, rfl⟩

instance drafts_modify (f : Method → Method) [hf : Drafting f] :
    Keeps Drafts (modify f : MethodM PUnit) := by
  refine ⟨fun u a v h => ?_⟩
  obtain rfl := h.modify
  exact ⟨Steps.refl u.1, hf.core u.2, hf.lastBlock u.2, hf.lastOffset u.2⟩

instance drafts_onStackMap (f : Buffer → SessionM Buffer) [∀ b, Keeps Quiet (f b)] :
    Keeps Drafts (onStackMap f) := by
  refine ⟨fun u a v h => ?_⟩
  obtain ⟨b, h, hv⟩ := ends_onStackMap h
  refine ⟨h.keeps, ?_, ?_, ?_⟩ <;> rw [hv]
  rfl

instance drafts_addFrame (f : MapFrame) : Keeps Drafts (addFrame f) := by
  refine keeps_then fun m => ?_
  dsimp only
  split <;> infer_instance

instance drafts_codeSize : Keeps Drafts codeSize := by
  unfold codeSize
  infer_instance

instance drafts_putCompressed (kind distance : Int) (locals stack : List (FrameItem LabelId)) :
    Keeps Drafts (putCompressed kind distance locals stack) := by
  unfold putCompressed
  dsimp only
  repeat' split
  all_goals infer_instance

instance drafts_compressedFrame (kind : Int) (locals stack : List (FrameItem LabelId)) :
    Keeps Drafts (compressedFrame kind locals stack) := by
  unfold compressedFrame
  infer_instance

end Drafts

instance calm_addFrame (f : MapFrame) : Keeps (Method.Calm own) (addFrame f) :=
  ⟨fun _ _ _ e => (e.keeps : Method.Drafts _ _).calm fun h => mapped_addFrame h e⟩

instance calm_addBlockFrame (f : Frame) : Keeps (Method.Calm own) (addBlockFrame f) := by
  unfold addBlockFrame
  infer_instance

instance calm_entryTypes : Keeps (Method.Calm own) entryTypes := by
  unfold entryTypes
  infer_instance

instance calm_addEntryFrame : Keeps (Method.Calm own) addEntryFrame := by
  unfold addEntryFrame
  infer_instance

instance calm_openFrame (f : FrameId) (maxLocals : Nat) :
    Keeps (Method.Calm own) (openFrame f maxLocals) := by
  unfold openFrame
  infer_instance

instance calm_expandedFrame (locals stack : List (FrameItem LabelId)) :
    Keeps (Method.Calm own) (expandedFrame locals stack) := by
  unfold expandedFrame
  infer_instance

instance calm_compressedFrame (kind : Int) (locals stack : List (FrameItem LabelId)) :
    Keeps (Method.Calm own) (compressedFrame kind locals stack) :=
  ⟨fun _ _ _ e => (e.keeps : Method.Drafts _ _).calm fun h => mapped_compressedFrame h e⟩

instance calm_insertedFrame (kind : Int) (locals stack : List (FrameItem LabelId)) :
    Keeps (Method.Calm own) (insertedFrame kind locals stack) := by
  refine keeps_then fun m => ?_
  split
  · infer_instance
  · refine keeps_then fun b => ?_
    split <;> infer_instance

instance calm_admitFrame (stackCount : Int) : Keeps (Method.Calm own) (admitFrame stackCount) := by
  unfold admitFrame
  infer_instance

instance calm_frame (e : FrameEvent LabelId) : Keeps (Method.Calm own) (frame e) := by
  unfold frame
  split
  · infer_instance
  · refine keeps_then fun m => ?_
    split <;> infer_instance

/-! ## The end of the code -/

instance calm_computeMaxStack : Keeps (Method.Calm own) computeMaxStack := by
  refine keeps_then fun m => ?_
  split <;> infer_instance

instance calm_protect (h : Handler) : Keeps (Method.Calm own) (protect h) := by
  unfold protect
  infer_instance

instance calm_prepareFrames (entry : LabelId) : Keeps (Method.Calm own) (prepareFrames entry) := by
  refine keeps_then fun m => keeps_then fun _ => ?_
  infer_instance

end MethodM

end ClassAssembler
