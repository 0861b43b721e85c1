import ClassAssembler.Proofs.Relocation
import Mathlib.Data.List.Perm.Basic

/-!
# Methods that are written again

A method whose code holds pending jumps is read, and what is read is taken by a new method.  The
events that are read hold the instructions in the order of the code, each behind the label of its
offset (`Method.body_codeEvents`).  All their targets get labels of their own (`Method.Numbered`).
So the new method has the old code, written again, and its exception ranges refer to the same places
of the code at their new offsets (`Method.HandlersMoved`).
-/

namespace ClassAssembler

open Machine Item List CodeEvent Except

namespace Checked

variable {α β : Type}

theorem forall₂_of_mapM {f : α → Checked β} {as : List α} {bs : List β}
    (h : as.mapM f = .ok bs) : Forall₂ (fun a b => f a = .ok b) as bs := by
  induction as generalizing bs with
  | nil =>
    obtain rfl := ok.inj h
    exact .nil
  | cons a as ih =>
    rw [mapM_cons] at h
    obtain ⟨b, hb, h⟩ := bind_eq_ok.1 h
    obtain ⟨bs', hbs, h⟩ := bind_eq_ok.1 h
    obtain rfl := ok.inj h
    exact .cons hb (ih hbs)

end Checked

namespace CodeEvent

theorem targets_mapTargets {T U : Type} (f : T → U) (e : CodeEvent T) :
    (e.mapTargets f).targets = e.targets.map f := by
  cases e with
  | instruction i => exact i.targets_mapTargets f
  | frame g =>
    simp only [mapTargets, targets, ← map_append, filterMap_map, map_filterMap]
    refine filterMap_congr fun x _ => ?_
    cases x <;> rfl
  | _ => rfl

theorem regular_mapTargets {T U : Type} (f : T → U) (e : CodeEvent T) :
    (e.mapTargets f).Regular ↔ e.Regular := by
  cases e with
  | instruction i => exact Instruction.regular_mapTargets f i
  | _ => exact Iff.rfl

end CodeEvent

namespace Method

/-! ## The events of the code -/

section

variable {isLabel : Int → Bool} {lines : Std.HashMap Int (Array Int)} {b t : Int}

variable {e : CodeEvent Int}

theorem of_mem_labelEvents (h : e ∈ labelEvents isLabel lines b) :
    isLabel b = true ∧ (e = .label b ∨ ∃ n, e = .line n b) := by
  unfold labelEvents at h
  split at h
  next hb =>
    refine ⟨hb, (mem_cons.1 h).imp_right fun h => ?_⟩
    obtain ⟨n, -, rfl⟩ := mem_map.1 h
    exact ⟨n, rfl⟩
  next => cases h

theorem isInstruction_of_mem_labelEvents (h : e ∈ labelEvents isLabel lines b) :
    e.isInstruction = false := by
  obtain ⟨-, rfl | ⟨n, rfl⟩⟩ := of_mem_labelEvents h <;> rfl

theorem label_mem_labelEvents :
    .label t ∈ labelEvents isLabel lines b ↔ t = b ∧ isLabel b = true := by
  unfold labelEvents
  split
  next h => simp [h]
  next h => simp [h]

theorem target_of_mem_labelEvents (h : e ∈ labelEvents isLabel lines b) (ht : t ∈ e.targets) :
    t = b ∧ isLabel b = true := by
  obtain ⟨hb, rfl | ⟨n, rfl⟩⟩ := of_mem_labelEvents h
  · exact ⟨mem_singleton.1 ht, hb⟩
  · exact ⟨mem_singleton.1 ht, hb⟩

end

/-- The frames that stand before an instruction: those that are given at its offset, and one that is
inserted if none is given where one has to stand. -/
def frameEvents (given : List TableFrame) (wantsFrame : Bool) : List (CodeEvent Int) :=
  (given.map fun f => expanded f.locals f.stack) ++
    if wantsFrame && given.isEmpty then [.frame ⟨FrameEvent.inserted, 0, [], 0, []⟩] else []

theorem codeEvents_cons (insertsFrames : Bool) (at_ : Int → List (CodeEvent Int)) (offset : Int)
    (step : DecodedStep) (steps : List (Int × DecodedStep)) (frames : List TableFrame)
    (wantsFrame : Bool) (acc : Array (CodeEvent Int)) :
    ∃ given rest, (∀ f ∈ given, f ∈ frames ∧ f.offset = offset) ∧ (∀ f ∈ rest, f ∈ frames) ∧
      codeEvents insertsFrames at_ ((offset, step) :: steps) frames wantsFrame acc =
        codeEvents insertsFrames at_ steps rest (step.wantsFrame && insertsFrames)
          (acc ++ (at_ offset ++ (frameEvents given wantsFrame ++
            step.instructions.map instruction)).toArray) := by
  refine ⟨(frames.takeWhile fun f => f.offset ≤ offset).filter fun f => f.offset == offset,
    frames.drop (frames.takeWhile fun f => f.offset ≤ offset).length, fun f hf => ?_,
    fun f hf => mem_of_mem_drop hf, ?_⟩
  · obtain ⟨hmem, heq⟩ := mem_filter.1 hf
    exact ⟨(takeWhile_sublist _).subset hmem, eq_of_beq heq⟩
  · rw [codeEvents]
    refine congrArg _ (Array.toList_inj.1 ?_)
    rw [frameEvents]
    split <;> simp

/-- The objects that the frames of a stack map know by the offset they are created at. -/
def createdAt (frames : List TableFrame) (t : Int) : Prop :=
  ∃ f ∈ frames, .created t ∈ f.locals ++ f.stack

theorem target_of_mem_frameEvents {given : List TableFrame} {wantsFrame : Bool} {e : CodeEvent Int}
    (h : e ∈ frameEvents given wantsFrame) :
    (∃ g, e = .frame g) ∧ ∀ t ∈ e.targets, createdAt given t := by
  rcases mem_append.1 h with h | h
  · obtain ⟨f, hf, rfl⟩ := mem_map.1 h
    refine ⟨⟨_, rfl⟩, fun t ht => ⟨f, hf, ?_⟩⟩
    obtain ⟨x, hx, hxt⟩ := mem_filterMap.1 ht
    cases x with
    | created l => exact Option.some.inj hxt ▸ hx
    | _ => cases hxt
  · split at h
    · obtain rfl := mem_singleton.1 h
      exact ⟨⟨_, rfl⟩, nofun⟩
    · cases h

/-- The events behind each instruction are those at its offset and those that replace it. -/
theorem body_codeEvents (insertsFrames : Bool) (at_ : Int → List (CodeEvent Int))
    (ds : List (Nat × Decoded)) (frames : List TableFrame) (wantsFrame : Bool)
    (acc : Array (CodeEvent Int)) :
    ∃ es, (codeEvents insertsFrames at_ (Code.stepsOf ds) frames wantsFrame acc).toList =
        acc.toList ++ es ∧ Body at_ ds es ∧
      ∀ e ∈ es, ∀ t ∈ e.targets, (∃ b : Nat, ∃ e ∈ at_ b, t ∈ e.targets) ∨ createdAt frames t ∨
        ∃ x ∈ ds, ∃ j ∈ x.2.rewritten x.1, t ∈ j.targets := by
  induction ds generalizing frames wantsFrame acc with
  | nil => exact ⟨[], by simp [codeEvents, Code.stepsOf], .nil, nofun⟩
  | cons x ds ih =>
    obtain ⟨o, d⟩ := x
    obtain ⟨given, rest, hgiven, hrest, heq⟩ := codeEvents_cons insertsFrames at_ o (d.step o)
      (Code.stepsOf ds) frames wantsFrame acc
    obtain ⟨es, hes, hbody, htargets⟩ := ih rest ((d.step o).wantsFrame && insertsFrames)
      (acc ++ (at_ o ++ (frameEvents given wantsFrame ++
        (d.rewritten o).map instruction)).toArray)
    refine ⟨at_ o ++ (frameEvents given wantsFrame ++
      ((d.rewritten o).map instruction ++ es)), ?_,
      .cons (fun e he => (target_of_mem_frameEvents he).1) hbody, fun e he t ht => ?_⟩
    · rw [Code.stepsOf, map_cons]
      refine (congrArg Array.toList heq).trans (hes.trans ?_)
      simp
    · rcases mem_append.1 he with he | he
      · exact .inl ⟨o, e, he, ht⟩
      rcases mem_append.1 he with he | he
      · obtain ⟨f, hf, hft⟩ := (target_of_mem_frameEvents he).2 t ht
        exact .inr (.inl ⟨f, (hgiven f hf).1, hft⟩)
      rcases mem_append.1 he with he | he
      · obtain ⟨j, hj, rfl⟩ := mem_map.1 he
        exact .inr (.inr ⟨(o, d), mem_cons_self, j, hj, ht⟩)
      · rcases htargets e he t ht with h | ⟨f, hf, hft⟩ | ⟨x, hx, h⟩
        · exact .inl h
        · exact .inr (.inl ⟨f, hrest f hf, hft⟩)
        · exact .inr (.inr ⟨x, mem_cons_of_mem _ hx, h⟩)

end Method

namespace Machine

theorem Body.cases_of_mem {at_ : Int → List (CodeEvent Int)} {ds : List (Nat × Decoded)}
    {es : List (CodeEvent Int)} (h : Body at_ ds es) {e : CodeEvent Int} (he : e ∈ es) :
    (∃ b, e ∈ at_ b) ∨ (∃ g, e = .frame g) ∨
      ∃ x ∈ ds, ∃ j ∈ x.2.rewritten x.1, e = .instruction j := by
  induction h with
  | nil => cases he
  | @cons o d ds frames es hframes rest ih =>
    rcases mem_append.1 he with he | he
    · exact .inl ⟨_, he⟩
    rcases mem_append.1 he with he | he
    · exact .inr (.inl (hframes e he))
    rcases mem_append.1 he with he | he
    · obtain ⟨j, hj, rfl⟩ := mem_map.1 he
      exact .inr (.inr ⟨(o, d), mem_cons_self, j, hj, rfl⟩)
    · refine (ih he).imp_right fun h => h.imp_right ?_
      rintro ⟨x, hx, h⟩
      exact ⟨x, mem_cons_of_mem _ hx, h⟩

theorem Body.regular {at_ : Int → List (CodeEvent Int)} {ds : List (Nat × Decoded)}
    {es : List (CodeEvent Int)} (h : Body at_ ds es)
    (hat : ∀ b, ∀ e ∈ at_ b, e.isInstruction = false)
    (hds : ∀ x ∈ ds, ∀ j ∈ x.2.rewritten x.1, j.Regular) : ∀ e ∈ es, e.Regular := by
  intro e he
  rcases h.cases_of_mem he with ⟨b, he⟩ | ⟨g, rfl⟩ | ⟨x, hx, j, hj, rfl⟩
  · have := hat b e he
    cases e with
    | instruction => cases this
    | _ => trivial
  · trivial
  · exact hds x hx j hj

theorem regular_wide {op : Nat} (h : op = 200 ∨ op = 201) (t : Int) :
    (Instruction.jump (op : Int) t).Regular := by
  refine .inr ⟨op, rfl, ?_⟩
  rcases h with rfl | rfl <;> decide

theorem regular_reads {p : Pool} {i : Item} (hi : i.Sound p) (t : LabelId → Int) (o : Nat) :
    (i.reads t o).Regular := by
  cases i with
  | fixed j bs => exact (Instruction.regular_mapTargets t j).2 hi.1
  | short op l | skip op => exact .inl ⟨op, rfl, hi⟩
  | wide op l =>
    refine regular_wide ?_ (t l)
    rcases hi with rfl | rfl | rfl <;> simp
  | table low high fallback targets =>
    exact (Instruction.regular_mapTargets t (.tableSwitch low high fallback targets)).2 hi
  | lookup fallback keys targets =>
    exact (Instruction.regular_mapTargets t (.lookupSwitch fallback keys targets)).2 hi

theorem regular_rewritten {p : Pool} {r : Positions} {i : Item} (hi : i.Sound p) {t : LabelId → Int}
    {o : Nat} {j : Instruction Int}
    (hj : j ∈ Decoded.rewritten o ⟨i.reads t o, i.size o, i.isPending r o⟩) : j.Regular := by
  unfold Decoded.rewritten at hj
  split at hj
  next op t' hpend hjump =>
    dsimp only at hpend hjump
    split at hj
    next hop =>
      obtain rfl := mem_singleton.1 hj
      exact regular_wide (.inl rfl) _
    next hop =>
      -- the pending jump is a short one
      obtain ⟨n, hn, rfl⟩ : ∃ n : Nat, shape? n = some .branch ∧ op = n := by
        cases i with
        | short n l =>
          obtain ⟨rfl, -⟩ := Instruction.jump.inj hjump
          exact ⟨n, hi, rfl⟩
        | wide n l =>
          obtain rfl : n = 220 := of_decide_eq_true hpend
          obtain ⟨rfl, -⟩ := Instruction.jump.inj hjump
          exact absurd rfl hop
        | _ => cases hpend
      split at hj
      next hgoto =>
        obtain rfl := mem_singleton.1 hj
        exact @regular_wide (n + 33) (by omega) _
      next hgoto =>
        rcases mem_pair.1 hj with rfl | rfl
        · obtain ⟨op', hop', hcond⟩ := IsCondition.invert ⟨hn, by omega, by omega⟩
          rw [hop']
          exact .inl ⟨op', rfl, hcond.1⟩
        · exact regular_wide (.inl rfl) _
  next =>
    obtain rfl := mem_singleton.1 hj
    exact regular_reads hi t o

end Machine

namespace Method

variable {pool : Pool}

/-! ## The labels of the offsets -/

/-- Offsets have labels from a number on, and different offsets different ones. -/
structure Numbered (n : Nat) (s : Session) (labels : Std.HashMap Int LabelId) : Prop where
  range : ∀ (o : Int) (l : LabelId), labels[o]? = some l → n ≤ l ∧ l < s.labels.size
  injective : ∀ (o o' : Int) (l : LabelId), labels[o]? = some l → labels[o']? = some l → o = o'

theorem Numbered.insert {n : Nat} {s : Session} {labels : Std.HashMap Int LabelId}
    (h : Numbered n s labels) (hn : n ≤ s.labels.size) (o : Int) :
    Numbered n s.addLabel (labels.insert o s.labels.size) := by
  refine ⟨fun o' l hl => ?_, fun o₁ o₂ l h₁ h₂ => ?_⟩
  · rw [Std.HashMap.getElem?_insert] at hl
    rw [Session.size_addLabel]
    split at hl
    · obtain rfl := Option.some.inj hl
      exact ⟨hn, Nat.lt_succ_self _⟩
    · exact ⟨(h.range o' l hl).1, Nat.lt_succ_of_lt (h.range o' l hl).2⟩
  · rw [Std.HashMap.getElem?_insert] at h₁ h₂
    split at h₁
    next ho₁ =>
      split at h₂
      next ho₂ => exact (eq_of_beq ho₁).symm.trans (eq_of_beq ho₂)
      next =>
        obtain rfl := Option.some.inj h₁
        exact absurd (h.range o₂ _ h₂).2 (Nat.lt_irrefl _)
    next =>
      split at h₂
      next =>
        obtain rfl := Option.some.inj h₂
        exact absurd (h.range o₁ _ h₁).2 (Nat.lt_irrefl _)
      next => exact h.injective o₁ o₂ l h₁ h₂

theorem ends_allocate {os : List Int} {labels labels' : Std.HashMap Int LabelId} {n : Nat}
    {u v : Pool × Session} (h : Numbered n u.2 labels) (hn : n ≤ u.2.labels.size)
    (e : Ends (allocate os labels) u labels' v) :
    Quiet u v ∧ Numbered n v.2 labels' ∧
      ∀ o : Int, o ∈ os ∨ o ∈ labels → o ∈ labels' := by
  induction os generalizing labels u with
  | nil =>
    obtain ⟨rfl, rfl⟩ := e.pure
    exact ⟨Steps.refl _, h, fun o ho => ho.resolve_left not_mem_nil⟩
  | cons o os ih =>
    rw [allocate] at e
    split at e
    next hmem =>
      obtain ⟨hsame, hnum, hknown⟩ := ih h hn e
      refine ⟨hsame, hnum, fun o' ho' => hknown o' ?_⟩
      rcases ho' with ho' | ho'
      · rcases mem_cons.1 ho' with rfl | ho'
        · exact .inr hmem
        · exact .inl ho'
      · exact .inr ho'
    next hmem =>
      obtain ⟨l, w, hl, e⟩ := e.bind
      have hquiet := SessionM.quiet_newLabel.run _ _ _ hl
      obtain ⟨rfl, rfl⟩ := SessionM.ends_newLabel.1 hl
      obtain ⟨hsame, hnum, hknown⟩ := ih (h.insert hn o) (by simp; omega) e
      refine ⟨Steps.trans hquiet hsame, hnum, fun o' ho' => hknown o' ?_⟩
      rcases ho' with ho' | ho'
      · rcases mem_cons.1 ho' with rfl | ho'
        · exact .inr (Std.HashMap.mem_insert_self ..)
        · exact .inl ho'
      · exact .inr (Std.HashMap.mem_insert.2 (.inr ho'))

/-! ## Methods without code -/

/-- The first block of a method without code is opened. -/
structure Opens (own : LabelId → Prop) (u v : State) : Prop where
  emitted : Emitted own [] v
  extends_ : u.1.1.Extends v.1.1
  size : u.1.2.labels.size ≤ v.1.2.labels.size
  others : ∀ l, ¬ own l → v.1.2.spot l = u.1.2.spot l
  apart : ∀ l n, ¬ own l → v.1.2.next l = some n → u.1.2.next l = some n
  outline : { v.2.outline with entry := none } = { u.2.outline with entry := none }

theorem emitted_nil {own : LabelId → Prop} {p : Pool} {s : Session} {m : Method} (hp : p.Wf)
    (hbase : ∀ l, s.labels.size ≤ l → own l) (hspot : ∀ l, own l → s.spot l = {} ∧ s.next l = none)
    (hcode : m.code.toList = []) (hpending : m.hasPending = false) (hentry : m.entry = none)
    (hlast : m.lastBlock = none) : Emitted own [] ((p, s), m) where
  wf := hp
  base := hbase
  code := hcode
  waits l hl _ := by rw [(hspot l hl).1]; rfl
  labels := nofun
  pending := nofun
  sound := nofun
  bounded l hl := by rw [(hspot l hl).1]; exact zero_mem_bounds []
  ahead := nofun
  deferred := nofun
  found h := by cases hpending.symm.trans h
  linked l k hl hk := by rw [(hspot l hl).2] at hk; cases hk
  entry l hl := by cases hentry.symm.trans hl
  last l hl := by cases hlast.symm.trans hl

theorem Emitted.withEntry {own : LabelId → Prop} {items : List Item} {u : State} {m : Method}
    (he : Emitted own items u) (hcode : m.code = u.2.code) (hforward : m.forward = u.2.forward)
    (hpending : m.hasPending = u.2.hasPending) (hlast : m.lastBlock = u.2.lastBlock)
    (hentry : ∀ l, m.entry = some l → own l) :
    Emitted own items (u.1, m) where
  wf := he.wf
  base := he.base
  code := by rw [hcode]; exact he.code
  waits := he.waits
  labels := by rw [hforward]; exact he.labels
  pending := by rw [hpending]; exact he.pending
  sound := he.sound
  bounded := he.bounded
  ahead := he.ahead
  deferred := by rw [hpending]; exact he.deferred
  found := by rw [hpending]; exact he.found
  linked := he.linked
  entry := hentry
  last l hl := he.last l (hlast ▸ hl)

theorem opens_openCode {own : LabelId → Prop} {u v : State} (he : Emitted own [] u)
    (e : Ends MethodM.openCode u () v) : Opens own u v := by
  replace e := ends_get_bind.1 e
  split at e
  · obtain ⟨-, rfl⟩ := e.pure
    exact ⟨he, .refl _, Nat.le_refl _, fun _ _ => rfl, fun _ _ _ h => h, rfl⟩
  · obtain ⟨size, _, h, e⟩ := e.bind
    obtain ⟨-, rfl⟩ := MethodM.ends_checked.1 h
    obtain ⟨l, w₁, h₁, e⟩ := e.bind
    obtain ⟨hl, hnone⟩ := MethodM.ends_newLabel_lift h₁
    obtain ⟨_, w₂, h₂, e⟩ := e.bind
    obtain ⟨_, w₃, h₃, e⟩ := e.bind
    have hcalm₁ : Calm own u w₁ := h₁.keeps
    have hcalm₂ : Calm own w₁ w₂ := h₂.keeps
    have hcalm : Calm own u w₂ := Steps.trans hcalm₁ hcalm₂
    have hown : own l := he.base l (Nat.le_of_eq hl)
    have hw₂ := he.calm hcalm
    have hlt : l < w₁.1.2.labels.size := by
      obtain ⟨hsize, hw₁⟩ := SessionM.ends_newLabel.1 h₁.lift.1
      rw [← hw₁, Session.size_addLabel, hsize]
      exact Nat.lt_succ_self l
    obtain ⟨s₃, m₃⟩ := w₃
    obtain ⟨rfl, hm₃⟩ := Prod.mk.inj h₃.modify
    have hw₃ : Emitted own [] (w₂.1, m₃) := by
      refine hw₂.withEntry (by rw [← hm₃]) (by rw [← hm₃]) (by rw [← hm₃]) (by rw [← hm₃])
        fun k hk => ?_
      rw [← hm₃] at hk
      exact Option.some.inj hk ▸ hown
    have hpos : w₂.1.2.positions l = none := by
      rw [hcalm₂.positions_eq hlt, hnone]
    obtain ⟨hv, hmoves, -⟩ := hw₃.place hown hpos e
    have hmoves₁ := hcalm.moves he.wf he.base he.last
    refine ⟨hv, hmoves₁.extends_.trans hmoves.extends_, Nat.le_trans hmoves₁.size hmoves.size,
      fun k hk => (hmoves.others k hk).trans (hmoves₁.others k hk),
      fun k n hk hn => hmoves₁.apart k n hk (hmoves.apart k n hk hn), ?_⟩
    rw [hmoves.outline, ← hmoves₁.outline, ← hm₃]
    rfl

/-! ## Reading a method -/

def placeIn (s : Session) (l : LabelId) : Int := (s.spot l).position

theorem placeIn_eq (s : Session) :
    (fun l => (s.labels[l]?.map fun b => (b.position : Int)).getD 0) = placeIn s := by
  funext l
  rw [placeIn, Session.spot]
  cases s.labels[l]? <;> rfl

def RangeEvent (pool : Pool) (position : LabelId → Int) (row : Handler) (e : CodeEvent Int) :
    Prop :=
  ∃ caught, e = .tryCatch (position row.start) (position row.stop) (position row.handler) caught ∧
    if row.caughtIndex = 0 then caught = [] else nameAt pool row.caughtIndex = .ok caught

/-- The signature of a local variable: the one in the first row of the table of types with the same
start, slot and name. -/
def signatureOf (m : Method) (row : LocalRow) : Option Nat :=
  (m.localTypeRows.find? fun t =>
    t.start == row.start && t.slot == row.slot && t.name == row.name).map LocalRow.desc

def VariableEvent (m : Method) (pool : Pool) (row : LocalRow) (e : CodeEvent Int) : Prop :=
  ∃ name desc signature, nameAt pool row.name = .ok name ∧ nameAt pool row.desc = .ok desc ∧
    (m.signatureOf row).elim (signature = []) (nameAt pool · = .ok signature) ∧
    e = .localVariable name desc signature row.start (row.start + row.length) row.slot

theorem rangeEvents {m : Method} {position : LabelId → Int} {es : List (CodeEvent Int)}
    (h : m.handlerEvents pool position = .ok es) :
    Forall₂ (RangeEvent pool position) m.handlers.toList es := by
  refine (Checked.forall₂_of_mapM h).imp fun row e he => ?_
  dsimp only at he
  split at he
  next h =>
    exact ⟨[], (ok.inj he).symm, by rw [if_pos h]⟩
  next h =>
    obtain ⟨caught, hcaught, he⟩ := Checked.bind_eq_ok.1 he
    exact ⟨caught, (ok.inj he).symm, by rw [if_neg h]; exact hcaught⟩

theorem variableRows {m : Method} {es : List (CodeEvent Int)} (h : m.variableEvents pool = .ok es) :
    Forall₂ (VariableEvent m pool) m.localRows.toList es := by
  refine (Checked.forall₂_of_mapM h).imp fun row e he => ?_
  dsimp only at he
  split at he
  all_goals
    rename_i hfind
    obtain ⟨signature, hsignature, he⟩ := Checked.bind_eq_ok.1 he
    obtain ⟨name, hname, he⟩ := Checked.bind_eq_ok.1 he
    obtain ⟨desc, hdesc, he⟩ := Checked.bind_eq_ok.1 he
    refine ⟨name, desc, signature, hname, hdesc, ?_, (ok.inj he).symm⟩
    rw [signatureOf, hfind]
  · exact hsignature
  · exact (ok.inj hsignature).symm

/-- What is read of a method: its exception ranges, its code with the labels of offsets, and its
local variables. -/
structure Reread (m : Method) (pool : Pool) (s : Session) (ds : List (Nat × Decoded))
    (offsets : List Int) (events : List (CodeEvent Int)) (at_ : Int → List (CodeEvent Int))
    (handlers first code named : List (CodeEvent Int)) : Prop where
  ranges : Forall₂ (RangeEvent pool (placeIn s)) m.handlers.toList handlers
  rows : Forall₂ (VariableEvent m pool) m.localRows.toList named
  labels : ∃ isLabel : Int → Bool, (∀ o, isLabel o = true ↔ o ∈ offsets) ∧
    at_ = labelEvents isLabel m.linesByOffset
  entry : ∀ e ∈ first, (∃ g, e = .frame g) ∧ e.targets = []
  body : Body at_ ds code
  targets : ∀ e ∈ code, ∀ t ∈ e.targets, t ∈ offsets
  jumps : ∀ x ∈ ds, ∀ j ∈ x.2.rewritten x.1, ∀ t ∈ j.targets, t ∈ offsets
  places : ∀ h ∈ m.handlers, ∀ l ∈ [h.start, h.stop, h.handler], placeIn s l ∈ offsets
  lines : ∀ row ∈ m.lineRows, (row.offset : Int) ∈ offsets
  locals : ∀ row ∈ m.localRows, (row.start : Int) ∈ offsets ∧ row.start + row.length ∈ offsets
  eq : events = handlers ++ (first ++ ((code ++ at_ m.code.size) ++ named)) ++
    [.maxs m.maxStack m.maxLocals]

section

variable {m : Method} {ds : List (Nat × Decoded)} {frames : List TableFrame}
  {position : LabelId → Int} {t : Int}

theorem jump_mem_labelOffsets {x : Nat × Decoded} (hx : x ∈ ds) {j : Instruction Int}
    (hj : j ∈ x.2.rewritten x.1) (ht : t ∈ j.targets) :
    t ∈ m.labelOffsets (Code.stepsOf ds).toArray frames position := by
  have hstep : t ∈ (Code.stepsOf ds).flatMap
      fun y => y.2.instructions.flatMap Instruction.targets :=
    mem_flatMap.2 ⟨_, mem_map_of_mem hx, mem_flatMap.2 ⟨j, hj, ht⟩⟩
  simp only [labelOffsets, mem_append]
  exact .inl (.inl (.inl (.inl (.inl hstep))))

theorem handler_mem_labelOffsets {h : Handler} (hh : h ∈ m.handlers) {l : LabelId}
    (hl : l ∈ [h.start, h.stop, h.handler]) :
    position l ∈ m.labelOffsets (Code.stepsOf ds).toArray frames position := by
  have hrow : position l ∈ m.handlers.toList.flatMap fun h =>
      [position h.start, position h.stop, position h.handler] :=
    mem_flatMap.2 ⟨h, Array.mem_toList_iff.2 hh, mem_map_of_mem (f := position) hl⟩
  simp only [labelOffsets, mem_append]
  exact .inl (.inl (.inl (.inl (.inr hrow))))

theorem line_mem_labelOffsets {row : LineRow} (hrow : row ∈ m.lineRows) :
    (row.offset : Int) ∈ m.labelOffsets (Code.stepsOf ds).toArray frames position := by
  simp only [labelOffsets, mem_append]
  exact .inl (.inl (.inl (.inr (mem_map.2 ⟨row, Array.mem_toList_iff.2 hrow, rfl⟩))))

theorem local_mem_labelOffsets {row : LocalRow} (hrow : row ∈ m.localRows)
    (ht : t = row.start ∨ t = row.start + row.length) :
    t ∈ m.labelOffsets (Code.stepsOf ds).toArray frames position := by
  simp only [labelOffsets, mem_append]
  refine .inl (.inl (.inr (mem_flatMap.2 ⟨row, Array.mem_toList_iff.2 hrow, ?_⟩)))
  simpa using ht

theorem created_mem_labelOffsets (ht : createdAt frames t) :
    t ∈ m.labelOffsets (Code.stepsOf ds).toArray frames position := by
  obtain ⟨f, hf, ht⟩ := ht
  simp only [labelOffsets, mem_append]
  exact .inl (.inr (mem_flatMap.2 ⟨f, hf, mem_filterMap.2 ⟨_, ht, rfl⟩⟩))

end

theorem exists_reread {m : Method} {s : Session} {insertsFrames : Bool} {offsets : List Int}
    {events : List (CodeEvent Int)} {ds : List (Nat × Decoded)}
    (h : m.reread pool s insertsFrames = .ok (offsets, events))
    (hdecode : Code.decode m.code.bytes pool = .ok (Code.stepsOf ds).toArray) :
    ∃ at_ handlers first code named,
      Reread m pool s ds offsets events at_ handlers first code named := by
  simp only [reread, placeIn_eq, hdecode] at h
  obtain ⟨_, hsteps, h⟩ := Checked.bind_eq_ok.1 h
  obtain rfl := ok.inj hsteps
  obtain ⟨frames, -, h⟩ := Checked.bind_eq_ok.1 h
  obtain ⟨handlers, hhandlers, h⟩ := Checked.bind_eq_ok.1 h
  split at h
  · cases h
  obtain ⟨named, hnamed, h⟩ := Checked.bind_eq_ok.1 h
  obtain ⟨rfl, rfl⟩ := Prod.mk.inj (ok.inj h)
  obtain ⟨code, hcode, hbody, htargets⟩ := body_codeEvents insertsFrames
    (labelEvents (Std.HashSet.ofList (m.labelOffsets (Code.stepsOf ds).toArray frames
      (placeIn s))).contains m.linesByOffset) ds frames false #[]
  have hlabel : ∀ o, (Std.HashSet.ofList (m.labelOffsets (Code.stepsOf ds).toArray frames
      (placeIn s))).contains o = true ↔
        o ∈ m.labelOffsets (Code.stepsOf ds).toArray frames (placeIn s) := by
    intro o
    rw [Std.HashSet.contains_ofList, contains_iff_mem]
  refine ⟨labelEvents _ m.linesByOffset, handlers,
    if insertsFrames then [.expanded (List.replicate m.maxLocals.toNat (.number 0)) []] else [],
    code, named, rangeEvents hhandlers, variableRows hnamed, ⟨_, hlabel, rfl⟩, ?_, hbody,
    fun e he t ht => ?_,
    fun x hx j hj t ht => jump_mem_labelOffsets hx hj ht,
    fun h hh l hl => handler_mem_labelOffsets hh hl, fun row hrow => line_mem_labelOffsets hrow,
    fun row hrow => ⟨local_mem_labelOffsets hrow (.inl rfl),
      local_mem_labelOffsets hrow (.inr rfl)⟩,
    ?_⟩
  · intro e he
    split at he
    · obtain rfl := mem_singleton.1 he
      refine ⟨⟨_, rfl⟩, ?_⟩
      simp [expanded, targets]
    · cases he
  · rcases htargets e he t ht with ⟨b, e, he, ht⟩ | ht | ⟨x, hx, j, hj, ht⟩
    · obtain ⟨rfl, hb⟩ := target_of_mem_labelEvents he ht
      exact (hlabel _).1 hb
    · exact created_mem_labelOffsets ht
    · exact jump_mem_labelOffsets hx hj ht
  · simp only [hcode, append_assoc]
    rfl

/-! ## The table of line numbers -/

/-! ## The rows of the tables -/

theorem kinds_of_mem_labelEvents {isLabel : Int → Bool} {lines : Std.HashMap Int (Array Int)}
    {b : Int} {e : CodeEvent Int} (h : e ∈ labelEvents isLabel lines b) :
    e.isRange = false ∧ e.isVariable = false := by
  obtain ⟨-, rfl | ⟨n, rfl⟩⟩ := of_mem_labelEvents h <;> exact ⟨rfl, rfl⟩

structure HandlerMoved (φ : Nat → Nat) (s s' : Session) (a b : Handler) : Prop where
  start : (s'.spot b.start).position = φ (s.spot a.start).position
  stop : (s'.spot b.stop).position = φ (s.spot a.stop).position
  handler : (s'.spot b.handler).position = φ (s.spot a.handler).position
  caught : b.caughtIndex = a.caughtIndex

/-- The exception table of a method refers to the same places of the code as that of another one, at
their new offsets. -/
def HandlersMoved (φ : Nat → Nat) (u v : State) : Prop :=
  Forall₂ (HandlerMoved φ u.1.2 v.1.2) u.2.handlers.toList v.2.handlers.toList

section

variable {own : LabelId → Prop} {items : List Item} {u v : State} {φ : Nat → Nat}
  {f : Int → LabelId} {offsets : List Int} {es : List (CodeEvent Int)}

theorem nameAt_of_has {p : Pool} {i : Nat} {c : Constant} (h : p.Has i c) :
    nameAt p i = .ok c.first := by
  rw [nameAt, Pool.fetch_of_at? h.1]
  rfl

theorem moves_handlers (hu : Done own items u) (hwf : v.1.1.Wf) (hext : u.1.1.Extends v.1.1)
    (hlab : ∀ b ∈ bounds items, (b : Int) ∈ offsets → v.1.2.positions (f b) = some (φ b))
    (hplaces : ∀ h ∈ u.2.handlers, ∀ l ∈ [h.start, h.stop, h.handler], placeIn u.1.2 l ∈ offsets)
    (hes : Forall₂ (RangeEvent u.1.1 (placeIn u.1.2)) u.2.handlers.toList es)
    (hrows : Forall₂ (CodeEvent.RangeRow v.1.1) (es.map (mapTargets f))
      v.2.handlers.toList) : HandlersMoved φ u v := by
  rw [forall₂_map_left_iff] at hrows
  refine forall₂_trans hes hrows fun a ha e b hae heb => ?_
  obtain ⟨caught, rfl, hcaught⟩ := hae
  obtain ⟨hs, ht, hh, hindex⟩ := heb
  have ha' := Array.mem_toList_iff.1 ha
  obtain ⟨hs', ht', hh', caught', hcaught'⟩ := hu.handlers a ha'
  have hmoved : ∀ l ∈ [a.start, a.stop, a.handler], own l → ∀ k, k = f (placeIn u.1.2 l) →
      (v.1.2.spot k).position = φ (u.1.2.spot l).position := by
    rintro l hl hown _ rfl
    exact (Session.positions_eq_some.1 (hlab _ (hu.bounded l hown) (hplaces a ha' l hl))).2
  refine ⟨hmoved a.start (by simp) hs' _ hs, hmoved a.stop (by simp) ht' _ ht,
    hmoved a.handler (by simp) hh' _ hh, ?_⟩
  rcases hcaught' with ⟨-, hzero⟩ | ⟨hne, hhas⟩
  · rw [if_pos hzero] at hcaught
    rcases hindex with ⟨-, hindex⟩ | ⟨hne, -⟩
    · rw [hindex, hzero]
    · exact absurd hcaught hne
  · have hpos := hwf.at?_pos (hhas.mono hext).1
    rw [if_neg (Nat.ne_of_gt hpos), nameAt_of_has hhas] at hcaught
    obtain rfl : caught' = caught := ok.inj hcaught
    rcases hindex with ⟨hnil, -⟩ | ⟨-, hindex⟩
    · exact absurd hnil hne
    · exact hwf.index_unique hindex.1 (hhas.mono hext).1

end

end Method

end ClassAssembler
