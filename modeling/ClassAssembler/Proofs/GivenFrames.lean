import ClassAssembler.Proofs.StackMaps

/-!
# Frames that a method is given

While the code of a method is written, frames may be given explicitly: expanded, with all their
types, or as changes to the frame before.  `Method.Visits` is a run with the frames that are given
in it, each at the offset that the code had reached, and `GivenFrame.frames?` is what they denote.
An event that gives no frame leaves alone what is noted about frames (`Method.Passes`), and one that
gives a frame records it or repeats the last one (`Method.accepts_of_take`).
-/

namespace ClassAssembler

open FrameEvent

set_option synthInstance.maxSize 400

open Buffer MapItem

/-! ## Work without frames -/

namespace Method

/-- Work that gives no frame: it leaves alone what is noted about frames, and the code
only grows. -/
structure Passes (u v : State) : Prop extends Aside u v where
  compute : v.2.compute = u.2.compute
  previous : v.2.previousOffset = u.2.previousOffset
  last : v.2.lastFrameOffset = u.2.lastFrameOffset
  size : u.2.code.size ≤ v.2.code.size

instance : Steps Passes where
  refl u := ⟨Steps.refl u, rfl, rfl, rfl, Nat.le_refl _⟩
  trans h h' := ⟨Steps.trans h.toAside h'.toAside, h'.compute.trans h.compute,
    h'.previous.trans h.previous, h'.last.trans h.last, Nat.le_trans h.size h'.size⟩

instance : CodeRelation Passes where
  session m h := ⟨CodeRelation.session m h, rfl, rfl, rfl, Nat.le_refl _⟩
  label s m l f := ⟨CodeRelation.label s m l f, rfl, rfl, rfl, Nat.le_refl _⟩
  method s m m' h hsize := ⟨CodeRelation.method s h hsize,
    (congrArg Method.compute h : m'.uncoded.compute = m.uncoded.compute),
    (congrArg previousOffset h : m'.uncoded.previousOffset = m.uncoded.previousOffset),
    (congrArg lastFrameOffset h : m'.uncoded.lastFrameOffset = m.uncoded.lastFrameOffset), hsize⟩

/-- A change of the tables of a method. -/
class Tabling (f : Method → Method) : Prop where
  passes : ∀ u : State, Passes u (u.1, f u.2)

instance (maxStack maxLocals : Method → Int) (handlers : Method → Array Handler)
    (localRows localTypeRows : Method → Array LocalRow) (forward : Method → Array LabelId)
    (hasMaxs : Method → Bool) :
    Tabling fun m =>
      { m with
        maxStack := maxStack m, maxLocals := maxLocals m, handlers := handlers m
        localRows := localRows m, localTypeRows := localTypeRows m, forward := forward m
        hasMaxs := hasMaxs m } :=
  ⟨fun u => ⟨⟨grown_of_sameCode _ _ (Steps.refl u.1), rfl⟩, rfl, rfl, rfl, Nat.le_refl _⟩⟩

end Method

namespace MethodM

open Method

variable {u v : State}

instance passes_modify (f : Method → Method) [hf : Tabling f] :
    Keeps Passes (modify f : MethodM PUnit) := by
  refine ⟨fun u _ v h => ?_⟩
  obtain rfl := h.modify
  exact hf.passes u

instance passes_dynamicEntry (name desc : Text) (method : Handle) (args : List Value) :
    Keeps Passes
      (liftM (PoolM.dynamicEntry name desc method args) : MethodM (Nat × Constant)) := by
  refine ⟨fun u r v e => ?_⟩
  obtain ⟨e, hs, hm⟩ := ends_pool e
  have hgrown : Grown u v := by
    refine ⟨fun hp => ?_, ?_, ?_⟩
    · obtain ⟨hreg, -⟩ := PoolM.numbers_dynamicEntry hp False.elim e
      exact ⟨hreg.wf, hreg.extend⟩
    · rw [hs]
      exact Steps.refl _
    · rw [hs]
  refine ⟨⟨hgrown, ?_⟩, ?_, ?_, ?_, ?_⟩ <;> rw [hm]

instance passes_write (i : Instruction LabelId) : Keeps Passes i.write :=
  Instruction.code_write fun _ _ _ _ _ => inferInstance

instance passes_tryCatch (start stop handler : LabelId) (caught : Text) :
    Keeps Passes (tryCatch start stop handler caught) := by
  unfold tryCatch
  infer_instance

instance quiet_localRow (name desc : Text) (start stop slot : Int) :
    Keeps Pool.Grows (localRow name desc start stop slot) := by
  unfold localRow
  infer_instance

instance passes_localVariable (name desc signature : Text) (start stop : LabelId) (slot : Int) :
    Keeps Passes (localVariable name desc signature start stop slot) := by
  refine keeps_then fun b => ?_
  split
  · refine keeps_then fun b' => ?_
    split
    · refine keeps_then fun k => keeps_then fun k' => ?_
      dsimp only
      infer_instance
    · infer_instance
  · infer_instance

theorem passes_maxs {stack locals : Int} (hcompute : u.2.compute ≠ .frames)
    (e : Ends (maxs stack locals) u () v) : Passes u v := by
  -- each step keeps the mode, so the last one does not compute frames either
  have hnext {w x : State} (hw : Passes u w) (hx : Passes w x) : Passes u x := Steps.trans hw hx
  obtain ⟨live, u₁, hlive, e⟩ := e.bind
  have h₁ : Passes u u₁ := hlive.keeps
  split at e
  next =>
    replace e := ends_get_bind.1 e
    split at e
    · exact hnext h₁ e.keeps
    · replace e := ends_get_bind.1 e
      split at e
      · exact hnext h₁ e.keeps
      · obtain ⟨_, u₂, hmodify, e⟩ := e.bind
        have h₂ := hnext h₁ hmodify.keeps
        replace e := ends_get_bind.1 e
        obtain ⟨resolved, u₃, hresolved, e⟩ := e.bind
        have h₃ := hnext h₂ hresolved.keeps
        split at e
        · obtain ⟨_, u₄, hmodify, e⟩ := e.bind
          have h₄ := hnext h₃ hmodify.keeps
          replace e := ends_get_bind.1 e
          obtain ⟨resolved, u₅, hresolved, e⟩ := e.bind
          have h₅ := hnext h₄ hresolved.keeps
          split at e
          · replace e := ends_get_bind.1 e
            split at e
            next hframes => exact absurd (h₅.compute.symm.trans hframes) hcompute
            · exact hnext h₅ e.keeps
            · exact hnext h₅ e.keeps
          · exact hnext h₅ e.keeps
        · exact hnext h₃ e.keeps
  next => exact hnext h₁ e.keeps

theorem passes_take {event : CodeEvent LabelId} (hevent : ∀ f, event ≠ .frame f)
    (hcompute : u.2.compute ≠ .frames) (e : Ends (take event) u () v) : Passes u v := by
  cases event with
  | frame f => exact absurd rfl (hevent f)
  | maxs stack locals => exact passes_maxs hcompute e
  | _ =>
    unfold take at e
    exact e.keeps

end MethodM

/-! ## Elements -/

namespace FrameItem

def placed (s : Session) (i : FrameItem LabelId) : FrameItem Int :=
  i.mapTarget fun l => ((s.spot l).position : Int)

def Valid : FrameItem Int → Prop
  | number n => 0 ≤ n ∧ n ≤ 6
  | name _ => True
  | created offset => 0 ≤ offset ∧ offset ≤ 65535
  | invalid => False

/-- An element that is no array, or one of at most fifteen dimensions. -/
def Shallow : FrameItem Int → Prop
  | name t => t.head? = some JavaType.bracket → ∃ p : FieldType, p.dims ≤ 15 ∧ p.desc = t
  | _ => True

theorem placed_congr {s t : Session} (h : ∀ l, t.spot l = s.spot l) (i : FrameItem LabelId) :
    i.placed t = i.placed s := by
  cases i <;> simp [placed, mapTarget, h]

end FrameItem

namespace MethodM

open FrameItem

variable {counted : Prop} {s s' : Pool × Session} {i : FrameItem LabelId}
  {is : List (FrameItem LabelId)}

theorem ends_position {l : LabelId} {b : Label} (h : Ends (SessionM.label l) s b s') :
    b.position = (s.2.spot l).position ∧ s = s' := by
  obtain ⟨hb, rfl⟩ := SessionM.ends_label h
  rw [Session.spot_of_label hb]
  exact ⟨rfl, rfl⟩

theorem stands_itemOf {items : List MapItem} (hp : s.1.Wf { counted })
    (hfail : s'.1.failure = none) (hi : (i.placed s.2).Valid) (e : Ends (itemOf i) s items s') :
    ∃ item, items = [item] ∧ item.Stands s'.1 (i.placed s.2) := by
  cases i with
  | number n =>
    obtain ⟨rfl, -⟩ := e.pure
    exact ⟨_, rfl, .basic hi.1 hi.2⟩
  | name t =>
    obtain ⟨k, w, hk, e⟩ := e.bind
    obtain ⟨rfl, rfl⟩ := e.pure
    exact ⟨_, rfl, SlotType.stands_classRef hp hfail hk⟩
  | created l =>
    obtain ⟨_, w, hresolved, e⟩ := e.bind
    obtain ⟨b, w', hb, e⟩ := e.bind
    obtain ⟨rfl, rfl⟩ := e.pure
    obtain ⟨hposition, rfl⟩ := ends_position hb
    obtain ⟨resolved, hresolved, -⟩ := ends_map.1 hresolved
    rcases ends_requireResolved hresolved with ⟨-, rfl, -⟩ | ⟨-, hfail'⟩
    · refine ⟨_, rfl, ?_⟩
      rw [hposition]
      exact .fresh hi.1 hi.2
    · exact absurd hfail hfail'
  | invalid => exact hi.elim

theorem stands_itemsOf {items : List MapItem} (hp : s.1.Wf { counted })
    (hfail : s'.1.failure = none) (his : ∀ x ∈ is.map (placed s.2), x.Valid)
    (e : Ends (itemsOf is) s items s') :
    List.Forall₂ (Stands s'.1) items (is.map (placed s.2)) := by
  induction is generalizing s items with
  | nil =>
    obtain ⟨rfl, -⟩ := e.pure
    exact .nil
  | cons i is ih =>
    obtain ⟨hi, his⟩ := List.forall_mem_cons.1 his
    obtain ⟨first, s₁, h₁, e⟩ := e.bind
    obtain ⟨rest, s₂, h₂, e⟩ := e.bind
    obtain ⟨rfl, rfl⟩ := e.pure
    have hsame : Quiet s s₁ := h₁.keeps
    have hsame' : Quiet s₁ s₂ := h₂.keeps
    obtain ⟨hp₁, -⟩ := hsame.grows hp
    obtain ⟨-, hext⟩ := hsame'.grows hp₁
    obtain ⟨item, rfl, hitem⟩ := stands_itemOf hp (hext.no_failure hfail) hi h₁
    have hplaced : placed s₁.2 = placed s.2 := funext (placed_congr hsame.spot)
    have hrest := ih hp₁ (by rw [hplaced]; exact his) h₂
    rw [hplaced] at hrest
    exact .cons (hitem.mono hext) hrest

theorem ofNumber_eq {n : Int} (hlow : 0 ≤ n) (hhigh : n ≤ 6) :
    SlotType.ofNumber n = ⟨0, .basic n.toNat⟩ := by
  interval_cases n <;> rfl

theorem item_itemType {t : SlotType} (hwf : s.2.types.Wf) (hfail : s'.1.failure = none)
    (hi : (i.placed s.2).Valid) (hshallow : (i.placed s.2).Shallow) (e : Ends (itemType i) s t s') :
    t.item? s'.2.types = some (i.placed s.2) := by
  cases i with
  | number n =>
    obtain ⟨rfl, -⟩ := e.pure
    obtain ⟨hlow, hhigh⟩ := hi
    rw [ofNumber_eq hlow hhigh]
    have hn : n.toNat ≤ 6 := by omega
    simp [SlotType.item?, hn, placed, mapTarget, Int.toNat_of_nonneg hlow]
  | name text => exact FieldType.item_ofName hshallow hwf e
  | created l =>
    obtain ⟨resolved, w, hresolved, e⟩ := e.bind
    rcases ends_requireResolved hresolved with ⟨rfl, rfl, -⟩ | ⟨rfl, hfail'⟩
    · obtain ⟨b, _, hb, e⟩ := e.bind
      obtain ⟨hposition, rfl⟩ := ends_position hb
      obtain ⟨k, w, hk, e⟩ := e.bind
      obtain ⟨rfl, rfl⟩ := e.pure
      have hat := SessionM.ends_place hwf hk
      rw [hposition] at hat
      have hoffset : (Int32.ofInt (s.2.spot l).position).toInt = (s.2.spot l).position :=
        Int32.toInt_ofInt_of_le (Int.le_trans (by decide) hi.1)
          (Int.lt_of_le_of_lt hi.2 (by decide))
      simp [SlotType.item?, SlotType.fresh, hat, TableType.offset, hoffset, placed, mapTarget, hi.2]
    · obtain ⟨-, rfl⟩ := e.pure
      exact absurd hfail hfail'
  | invalid => exact hi.elim

theorem names_itemTypes {ts : List SlotType} (hp : s.1.Wf { counted }) (hwf : s.2.types.Wf)
    (hfail : s'.1.failure = none) (hvalid : ∀ x ∈ is.map (placed s.2), x.Valid)
    (hshallow : ∀ x ∈ is.map (placed s.2), x.Shallow) (e : Ends (itemTypes is) s ts s') :
    SlotType.Names s'.2.types ts (is.map (placed s.2)) := by
  induction is generalizing s ts with
  | nil =>
    obtain ⟨rfl, -⟩ := e.pure
    exact .nil
  | cons i is ih =>
    obtain ⟨hi, hvalid⟩ := List.forall_mem_cons.1 hvalid
    obtain ⟨hi', hshallow⟩ := List.forall_mem_cons.1 hshallow
    obtain ⟨t, s₁, h₁, e⟩ := e.bind
    obtain ⟨rest, s₂, h₂, e⟩ := e.bind
    obtain ⟨rfl, rfl⟩ := e.pure
    have hsame : Quiet s s₁ := h₁.keeps
    have hsame' : Quiet s₁ s₂ := h₂.keeps
    obtain ⟨hp₁, -⟩ := hsame.grows hp
    obtain ⟨-, hext⟩ := hsame'.grows hp₁
    have hitem := item_itemType hwf (hext.no_failure hfail) hi hi' h₁
    have hplaced : placed s₁.2 = placed s.2 := funext (placed_congr hsame.spot)
    have hrest := ih hp₁ (hsame.types.wf hwf) (by rw [hplaced]; exact hvalid)
      (by rw [hplaced]; exact hshallow) h₂
    rw [hplaced] at hrest
    exact .cons (SlotType.item?_mono hsame'.types hitem) hrest

end MethodM

/-! ## Frames that are given -/

/-- An explicit frame at the offset where it was given. -/
structure GivenFrame where
  kind : Int
  offset : Nat
  locals : List (FrameItem Int)
  stack : List (FrameItem Int)

/-- A frame as a method is given it: the elements that it takes, at the end of the code. -/
def FrameEvent.given (f : FrameEvent LabelId) (u : Method.State) : GivenFrame where
  kind := f.kind
  offset := u.2.code.size
  locals := (f.locals.take f.localCount.toNat).map (FrameItem.placed u.1.2)
  stack := (f.stack.take f.stackCount.toNat).map (FrameItem.placed u.1.2)

def CodeEvent.given (e : CodeEvent LabelId) (u : Method.State) : List GivenFrame :=
  match e with
  | frame f => [f.given u]
  | _ => []

namespace GivenFrame

def listed (g : GivenFrame) : List (FrameItem Int) :=
  if g.kind = expanded ∨ g.kind = full then g.locals ++ g.stack
  else if g.kind = FrameEvent.append then g.locals
  else if g.kind = same1 then g.stack.take 1
  else []

/-- The frame that a given frame denotes behind one with certain local variables. -/
def frame? (before : List (FrameItem Int)) (g : GivenFrame) : Option TableFrame :=
  if g.kind = expanded ∨ g.kind = full then some ⟨g.offset, g.locals, g.stack⟩
  else if g.kind = FrameEvent.append then some ⟨g.offset, before ++ g.locals, []⟩
  else if g.kind = chop then
    if g.locals.length ≤ before.length then
      some ⟨g.offset, before.take (before.length - g.locals.length), []⟩
    else none
  else if g.kind = same then some ⟨g.offset, before, []⟩
  else if g.kind = same1 then g.stack.head?.map fun x => ⟨g.offset, before, [x]⟩
  else none

/-- The frames that given frames denote behind the local variables and the offset of the last one.
A frame at the offset of the last one is the same frame again. -/
def frames? : List (FrameItem Int) → Option Int → List GivenFrame → Option (List TableFrame)
  | _, _, [] => some []
  | before, last, g :: gs =>
    if last = some (g.offset : Int) then
      if g.kind = same then frames? before last gs else none
    else do
      let f ← g.frame? before
      let fs ← frames? f.locals (some f.offset) gs
      return f :: fs

theorem offset_frame? {before : List (FrameItem Int)} {g : GivenFrame} {f : TableFrame}
    (h : g.frame? before = some f) : f.offset = g.offset := by
  unfold frame? at h
  split_ifs at h
  · exact Option.some.inj h ▸ rfl
  · exact Option.some.inj h ▸ rfl
  · exact Option.some.inj h ▸ rfl
  · exact Option.some.inj h ▸ rfl
  · obtain ⟨x, -, rfl⟩ := Option.map_eq_some_iff.1 h
    rfl

end GivenFrame

namespace Method

open MethodM

/-- A run of a method, with the frames that it is given. -/
inductive Visits : State → List (CodeEvent LabelId) → List GivenFrame → State → Prop
  | done (u : State) : Visits u [] [] u
  | step {u v w : State} {e : CodeEvent LabelId} {es : List (CodeEvent LabelId)}
      {gs : List GivenFrame} : Ends (take e) u () v → Visits v es gs w →
      Visits u (e :: es) (e.given u ++ gs) w

def Records (m : Method) : Prop := m.compute = .nothing ∨ m.compute = .maxs

def noted (u : State) : State := (u.1, { u.2 with lastFrameOffset := some u.2.code.size })

/-- A method records a frame that it is given. -/
inductive Accepts (u : State) (f : FrameEvent LabelId) (v : State) : Prop
  | expanded {x : State} : f.kind = expanded →
      Ends (expandedFrame (f.locals.take f.localCount.toNat) (f.stack.take f.stackCount.toNat))
        (noted u) () x → Ends (admitFrame f.stackCount) x () v → Accepts u f v
  | compressed {x : State} {taken : Bool} : f.kind ≠ expanded →
      Ends (compressedFrame f.kind (f.locals.take f.localCount.toNat)
        (f.stack.take f.stackCount.toNat)) (noted u) taken x →
      Ends (if taken then admitFrame f.stackCount else pure ()) x () v → Accepts u f v

/-- A frame is accepted, or one stands at its offset already and nothing changes. -/
theorem accepts_of_take {u v : State} {f : FrameEvent LabelId} (hu : u.2.Records)
    (hfail : v.1.1.failure = none) (e : Ends (take (.frame f)) u () v) :
    u.2.lastFrameOffset = some u.2.code.size ∧ f.kind = same ∧ u = v ∨
      u.2.lastFrameOffset ≠ some u.2.code.size ∧ Accepts u f v := by
  have e : Ends (frame f) u () v := ends_inCode hfail e
  unfold frame at e
  split at e
  · exact absurd hfail (failure_of_fail e)
  · replace e := ends_get_bind.1 e
    split at e
    next hframes => rcases hu with h | h <;> rw [h] at hframes <;> cases hframes
    next hinserted => rcases hu with h | h <;> rw [h] at hinserted <;> cases hinserted
    next =>
      obtain ⟨n, _, hn, e⟩ := e.bind
      obtain ⟨rfl, rfl⟩ := ends_codeSize.1 hn
      replace e := ends_get_bind.1 e
      split at e
      next hlast =>
        split at e
        next hkind => exact .inl ⟨hlast, hkind, e.pure.2⟩
        next => exact absurd hfail (failure_of_fail e)
      next hlast =>
        replace e := ends_modify_bind.1 e
        refine .inr ⟨hlast, ?_⟩
        split at e
        next hkind =>
          obtain ⟨_, x, hx, e⟩ := e.bind
          exact .expanded hkind hx e
        next hkind =>
          obtain ⟨taken, x, hx, e⟩ := e.bind
          exact .compressed hkind hx e

instance drafts_addEntryFrame : Keeps Drafts addEntryFrame := by
  unfold addEntryFrame entryTypes
  infer_instance

instance drafts_expandedFrame (locals stack : List (FrameItem LabelId)) :
    Keeps Drafts (expandedFrame locals stack) := by
  unfold expandedFrame
  infer_instance

instance drafts_admitFrame (n : Int) : Keeps Drafts (admitFrame n) := by
  unfold admitFrame
  infer_instance

theorem Accepts.drafts {u v : State} {f : FrameEvent LabelId} (h : Accepts u f v) :
    Drafts (noted u) v := by
  cases h with
  | expanded _ e e' => exact Steps.trans e.keeps e'.keeps
  | compressed _ e e' => exact Steps.trans e.keeps e'.keeps

end Method

end ClassAssembler
