import ClassAssembler.Proofs.Trace

/-!
# Writing instructions

What one instruction adds to the code of a method: an instruction without targets its own bytes, a
jump or a switch the items it takes where it stands (`Instruction.Forms`).  Everything else that is
done along with it leaves the code alone.
-/

namespace ClassAssembler

open List Buffer

set_option synthInstance.maxSize 400

open Machine Item

def IsCondition (op : Nat) : Prop := shape? op = some .branch ∧ op ≠ 167 ∧ op ≠ 168

theorem IsCondition.invert {op : Nat} (h : IsCondition op) :
    ∃ op' : Nat, Opcode.invertJump op = op' ∧ IsCondition op' := by
  have hall : ∀ op < 221, shape? op = some .branch ∧ op ≠ 167 ∧ op ≠ 168 →
      Opcode.invertJump op = (Opcode.invertJump op).toNat ∧
        shape? (Opcode.invertJump op).toNat = some .branch ∧
        (Opcode.invertJump op).toNat ≠ 167 ∧ (Opcode.invertJump op).toNat ≠ 168 := by
    decide +kernel
  obtain ⟨hinv, hcond⟩ := hall op (Nat.lt_succ_of_le (le_of_shape? h.1)) h
  exact ⟨_, hinv, hcond⟩

/-- The items that an instruction is written as at an offset. -/
inductive Instruction.Forms (p : Pool) (r : Positions) (o : Nat) :
    Instruction LabelId → List Item → Prop
  | fixed {i : Instruction LabelId} {bs : List UInt8} (h : i.Spelled p bs) :
  Forms p r o i [.fixed i bs]
  | short {op : Nat} (h : shape? op = some .branch) (l : LabelId) :
      Forms p r o (.jump op l) [.short op l]
  | wide {op : Nat} (h : op = 200 ∨ op = 201) (l : LabelId) : Forms p r o (.jump op l) [.wide op l]
  | widened {op : Nat} (h : op = 167 ∨ op = 168) {l : LabelId} {t : Nat} (ht : r l = some t)
      (hback : t ≤ o) : Forms p r o (.jump op l) [.wide (op + 33) l]
  | inverted {op op' wide : Nat} (h : IsCondition op) (h' : Opcode.invertJump op = op')
      (hwide : wide = 200 ∨ wide = 220) {l : LabelId} {t : Nat} (ht : r l = some t)
      (hback : t ≤ o) : Forms p r o (.jump op l) [.skip op', .wide wide l]
  | table (low high : Int) (fallback : LabelId) (targets : List LabelId) :
      Forms p r o (.tableSwitch low high fallback targets) [.table low high fallback targets]
  | lookup (fallback : LabelId) (keys : List Int) (targets : List LabelId) :
      Forms p r o (.lookupSwitch fallback keys targets) [.lookup fallback keys targets]

theorem Instruction.Forms.mono {p q : Pool} {r r' : Positions} {o : Nat} {i : Instruction LabelId}
    {new : List Item} (h : Instruction.Forms p r o i new) (hp : p.Extends q)
    (hr : ∀ l t, r l = some t → r' l = some t) : Instruction.Forms q r' o i new := by
  cases h with
  | fixed h => exact .fixed (h.mono hp)
  | short h l => exact .short h l
  | wide h l => exact .wide h l
  | widened h ht hback => exact .widened h (hr _ _ ht) hback
  | inverted h h' hwide ht hback => exact .inverted h h' hwide (hr _ _ ht) hback
  | table low high fallback targets => exact .table low high fallback targets
  | lookup fallback keys targets => exact .lookup fallback keys targets

namespace Method

variable {own : LabelId → Prop} {items : List Item} {u v w : State}

variable {i : Instruction LabelId}

structure Writes (own : LabelId → Prop) (items : List Item) (i : Instruction LabelId)
    (u v : State) : Prop where
  moves : Moves own u v
  emitted : ∃ new, Emitted own (items ++ new) v ∧
    i.Forms v.1.1 v.1.2.positions (stop 0 items) new

theorem Writes.calm (h : Writes own items i u v) (hc : Calm own v w) : Writes own items i u w := by
  obtain ⟨new, he, hforms⟩ := h.emitted
  have hm : Moves own v w := hc.moves he.wf he.base he.last
  exact ⟨Steps.trans h.moves hm, new, he.calm hc, hforms.mono hm.extends_ hm.stays⟩

theorem Writes.after (he : Emitted own items u) (hc : Calm own u v) (h : Writes own items i v w) :
    Writes own items i u w :=
  ⟨Steps.trans (hc.moves he.wf he.base he.last) h.moves, h.emitted⟩

theorem Writes.place {l : LabelId} (h : Writes own items i u v) (hl : own l)
    (hnone : v.1.2.positions l = none) (e : Ends (MethodM.placeLabel l) v () w) :
    Writes own items i u w := by
  obtain ⟨new, he, hforms⟩ := h.emitted
  obtain ⟨he', hm, -⟩ := he.place hl hnone e
  exact ⟨Steps.trans h.moves hm, new, he', hforms.mono hm.extends_ hm.stays⟩

theorem Writes.base (h : Writes own items i u v) {n : LabelId} (hn : v.1.2.labels.size ≤ n) :
    own n := by
  obtain ⟨new, he, -⟩ := h.emitted
  exact he.base n hn

theorem Emitted.emit_fixed {bs : List UInt8} {f : Buffer → Buffer} (he : Emitted own items u)
    (hreg : i.Regular) (hi : i.Spelled u.1.1 bs) (hf : ∀ b, (f b).toList = b.toList ++ bs)
    (e : Ends (MethodM.emit f) u () v) : Writes own items i u v := by
  obtain ⟨hw, hemits⟩ := MethodM.ends_emit_bytes he.toWritten (hf _) e
  have hi' : i.Spelled v.1.1 bs := hemits.pool ▸ hi
  exact ⟨hemits.moves, [.fixed i bs], he.append_calm hemits hw ⟨hreg, hi'⟩ trivial (by simp),
    .fixed hi'⟩

end Method

theorem Method.Emitted.position_le {own : LabelId → Prop} {items : List Item} {u : Method.State}
    {l : LabelId} {o : Nat} (he : Method.Emitted own items u) (hl : own l)
    (ho : u.1.2.positions l = some o) : o ≤ stop 0 items := by
  have hb := he.bounded l hl
  rw [(Session.positions_eq_some.1 ho).2] at hb
  exact le_of_mem_bounds hb

namespace MethodM

open Method

variable {own : LabelId → Prop} {items : List Item} {u v : State}

variable {i : Instruction LabelId} {l : LabelId} {ps : List Piece} {op source : Nat}
  {next : Option LabelId} {w : State} {desc name : Text}

theorem ends_newLabel_lift (e : Ends (liftM SessionM.newLabel : MethodM LabelId) u l v) :
    u.1.2.labels.size = l ∧ v.1.2.positions l = none := by
  obtain ⟨h, -⟩ := e.lift
  obtain ⟨rfl, hv⟩ := SessionM.ends_newLabel.1 h
  refine ⟨rfl, ?_⟩
  rw [← hv, Session.positions_eq_none, Session.spot_addLabel,
    Session.spot_of_size_le (Nat.le_refl _)]

theorem writes_plain {op : Int} (he : Emitted own items u)
    (hreg : (Instruction.plain op : Instruction LabelId).Regular) (e : Ends (plain op) u () v) :
    Writes own items (.plain op) u v := by
  obtain ⟨_, w, h, e⟩ := e.bind
  have hw : Writes own items (.plain op) u w :=
    he.emit_fixed hreg rfl (fun b => toList_putByte b op) h
  refine hw.calm ((?_ : Keeps (Calm own) _).run _ _ _ e)
  refine keeps_then fun _ => keeps_then fun m => ?_
  split <;> infer_instance

theorem writes_push {op operand : Int} (he : Emitted own items u)
    (hreg : (Instruction.push op operand : Instruction LabelId).Regular)
    (e : Ends (push op operand) u () v) : Writes own items (.push op operand) u v := by
  obtain ⟨_, w, h, e⟩ := e.bind
  have hc : Calm own u w := h.keeps
  refine .after he hc ((he.calm hc).emit_fixed hreg rfl (fun b => ?_) e)
  change (if op = 17 then b.putTagged op operand else b.putPair op operand).toList = _
  split
  · exact toList_putTagged b op operand
  · exact toList_putPair b op operand

theorem toList_putVar (op slot : Int) (b : Buffer) :
    (putVar op slot b).toList = b.toList ++ Instruction.varBytes op slot := by
  change (if slot < 4 ∧ op ≠ 169 then
      if op < 54 then b.putByte (26 + (op - 21) * 4 + slot) else b.putByte (59 + (op - 54) * 4 +
        slot)
    else if 256 ≤ slot then (b.putByte 196).putTagged op slot else b.putPair op slot).toList = _
  unfold Instruction.varBytes Instruction.fixedOp
  split
  · split <;> simp
  · split
    · simp [bytes16]
    · simp

theorem writes_var {op slot : Int} (he : Emitted own items u)
    (hreg : (Instruction.var op slot : Instruction LabelId).Regular)
    (e : Ends (var op slot) u () v) : Writes own items (.var op slot) u v := by
  obtain ⟨_, w₁, h₁, e⟩ := e.bind
  have hc₁ : Calm own u w₁ := h₁.keeps
  replace e := ends_get_bind.1 e
  obtain ⟨w₂, h₂, e⟩ := ends_unless.1 e
  have hc₂ : Calm own w₁ w₂ := h₂.keeps
  obtain ⟨_, w₃, h₃, e⟩ := e.bind
  have hc : Calm own u w₂ := Steps.trans hc₁ hc₂
  have hw : Writes own items (.var op slot) u w₃ :=
    .after he hc ((he.calm hc).emit_fixed hreg rfl (toList_putVar op slot) h₃)
  simp only [ends_bind, ends_get] at e
  obtain ⟨_, _, ⟨rfl, rfl⟩, _, _, ⟨rfl, rfl⟩, e⟩ := e
  split at e
  · obtain ⟨l, w₄, h₄, e⟩ := e.bind
    have hc₄ : Calm own w₃ w₄ := h₄.keeps
    obtain ⟨rfl, hnone⟩ := ends_newLabel_lift h₄
    exact (hw.calm hc₄).place (hw.base (Nat.le_refl _)) hnone e
  · obtain ⟨-, rfl⟩ := e.pure
    exact hw

theorem ends_pool {α : Type} {x : PoolM α} {a : α} (e : Ends (liftM x : MethodM α) u a v) :
    Ends x u.1.1 a v.1.1 ∧ v.1.2 = u.1.2 ∧ v.2 = u.2 := by
  obtain ⟨h, hm⟩ := e.lift
  obtain ⟨h, hs⟩ := h.lift
  exact ⟨h, hs.symm, hm.symm⟩

theorem calm_pool (hgrows : u.1.1.Grows v.1.1) (hs : v.1.2 = u.1.2) (hm : v.2 = u.2) :
    Calm own u v :=
  ⟨hgrows, Nat.le_of_eq (by rw [hs]), fun _ => .inl (by rw [hs]),
    fun _ hlast => ⟨hm ▸ hlast, fun _ _ h => .inl (hs ▸ h)⟩, by rw [hm], by rw [hs],
    fun hmapped => hmapped.congr hgrows.onward (by rw [hm])⟩

theorem ends_intern {c : Constant} {x : PoolM Nat} [Keeps Pool.Onward x] {i : Nat}
    (hx : PoolM.Interns c x) (hwf : u.1.1.Wf) (e : Ends (liftM x : MethodM Nat) u i v) :
    Calm own u v ∧ v.1.1.at? i = some c := by
  obtain ⟨h, hs, hm⟩ := ends_pool e
  exact ⟨calm_pool (hx.quiet.run _ _ _ h) hs hm, (hx _ _ _ hwf h).2⟩

/-- An instruction that refers to a constant: the constant is registered, the block is told about
the instruction, and its bytes are appended. -/
theorem writes_constant {c : Constant} {k : Nat} {bs : List UInt8} {w' : State}
    {f : Buffer → Buffer} (he : Emitted own items u) (hreg : i.Regular) (hc : Calm own u w)
    (hk : w.1.1.at? k = some c) (hc' : Calm own w w') (e : Ends (emit f) w' () v)
    (hf : ∀ b, (f b).toList = b.toList ++ bs) (hfail : v.1.1.failure = none)
    (hi : ∀ q : Pool, q.Has k c → i.Spelled q bs) : Writes own items i u v := by
  have hcalm : Calm own u w' := Steps.trans hc hc'
  have hw' := he.calm hcalm
  have hpool : v.1.1 = w'.1.1 := by
    rw [← ends_emit.1 e]
  have hat : w'.1.1.at? k = some c := (hc'.grows (he.calm hc).wf).2.at? hk
  exact .after he hcalm (hw'.emit_fixed hreg (hi _ (hw'.wf.has (hpool ▸ hfail) hat)) hf e)

theorem writes_type {op : Int} (he : Emitted own items u)
    (hreg : (Instruction.type op name : Instruction LabelId).Regular) (hfail : v.1.1.failure = none)
    (e : Ends (type op name) u () v) : Writes own items (.type op name) u v := by
  obtain ⟨k, w, h, e⟩ := e.bind
  obtain ⟨hc, hk⟩ := ends_intern (PoolM.interns_classRef name) he.wf h
  obtain ⟨n, _, hn, e⟩ := e.bind
  obtain ⟨rfl, rfl⟩ := ends_codeSize.1 hn
  obtain ⟨_, w', h', e⟩ := e.bind
  refine writes_constant he hreg hc hk h'.keeps e
    (fun b => toList_putTagged b op k) hfail fun q hq => ⟨k, hq, rfl⟩

theorem writes_field {op : Int} {owner : Text} (he : Emitted own items u)
    (hreg : (Instruction.field op owner name desc : Instruction LabelId).Regular)
    (hfail : v.1.1.failure = none) (e : Ends (field op owner name desc) u () v) :
    Writes own items (.field op owner name desc) u v := by
  obtain ⟨k, w, h, e⟩ := e.bind
  obtain ⟨hc, hk⟩ := ends_intern (PoolM.interns_fieldRef owner name desc) he.wf h
  obtain ⟨_, w', h', e⟩ := e.bind
  refine writes_constant he hreg hc hk h'.keeps e
    (fun b => toList_putTagged b op k) hfail fun q hq => ⟨k, hq, rfl⟩

theorem writes_invoke {op : Int} {owner : Text} {ofInterface : Bool} (he : Emitted own items u)
    (hreg : (Instruction.invoke op owner name desc ofInterface : Instruction LabelId).Regular)
    (hfail : v.1.1.failure = none) (e : Ends (invoke op owner name desc ofInterface) u () v) :
    Writes own items (.invoke op owner name desc ofInterface) u v := by
  obtain ⟨k, w, h, e⟩ := e.bind
  obtain ⟨hc, hk⟩ := ends_intern (PoolM.interns_methodRef owner name desc ofInterface) he.wf h
  obtain ⟨size, _, hsize, e⟩ := e.bind
  obtain ⟨hcall, rfl⟩ := MethodM.ends_checked.1 hsize
  obtain ⟨_, w', h', e⟩ := e.bind
  refine writes_constant he hreg hc hk h'.keeps e (fun b => ?_) hfail
    fun q hq => ⟨k, size, hq, hcall, rfl⟩
  change (if op = 185 then (b.putTagged op k).putPair size.arguments 0
    else b.putTagged op k).toList = _
  split <;> simp [bytes16]

theorem writes_dynamic {method : Handle} {args : List Value} (he : Emitted own items u)
    (hreg : (Instruction.dynamic name desc method args : Instruction LabelId).Regular)
    (hfail : v.1.1.failure = none) (e : Ends (dynamic name desc method args) u () v) :
    Writes own items (.dynamic name desc method args) u v := by
  obtain ⟨⟨k, c⟩, w, h, e⟩ := e.bind
  obtain ⟨h, hs, hm⟩ := ends_pool h
  obtain ⟨hregs, n, rfl, hk, hsite⟩ := PoolM.ends_dynamicEntry he.wf hreg.1 h
  have hc : Calm own u w :=
    calm_pool ((PoolM.quiet_dynamicEntry name desc method hreg.1).run _ _ _ h) hs hm
  obtain ⟨_, w', h', e⟩ := e.bind
  have hc' : Calm own w w' := h'.keeps
  have hgrows := hc'.grows hregs.wf
  have hpool : v.1.1 = w'.1.1 := by
    rw [← ends_emit.1 e]
  have hcalls : w'.1.1.Calls n method args := by
    obtain ⟨hkind, cs, hcs, hsite⟩ := hsite (hgrows.2.no_failure (hpool ▸ hfail))
    exact Pool.Calls.mono hgrows.2 ⟨hkind, cs, hcs, hsite⟩
  have hcalm : Calm own u w' := Steps.trans hc hc'
  refine .after he hcalm ((he.calm hcalm).emit_fixed hreg
    ⟨k, n, hgrows.1.has (hpool ▸ hfail) (hgrows.2.at? hk), hcalls, rfl⟩ (fun b => ?_) e)
  simp [bytes16]
  rfl

theorem writes_load {x : Value} (he : Emitted own items u)
    (hreg : (Instruction.constant x : Instruction LabelId).Regular)
    (hfail : v.1.1.failure = none) (e : Ends (constant x) u () v) :
    Writes own items (.constant x) u v := by
  obtain ⟨o, w, h, e⟩ := e.bind
  obtain ⟨h, hs, hm⟩ := ends_pool h
  have hreg' := PoolM.ends_valueEntry he.wf h
  have hc : Calm own u w := calm_pool h.keeps hs hm
  cases o with
  | none =>
    obtain ⟨-, rfl⟩ := e.pure
    obtain ⟨i, c, hnone, -⟩ := hreg'.constant hfail
    cases hnone
  | some r =>
    obtain ⟨k, c⟩ := r
    obtain ⟨_, w', h', e⟩ := e.bind
    have hc' : Calm own w w' := h'.keeps
    have hpool : v.1.1 = w'.1.1 := by
      rw [← ends_emit.1 e]
    have hvalue : x.constant? = some c := by
      obtain ⟨_, _, hsome, hvalue⟩ := hreg'.constant
        ((hc'.grows hreg'.registers.wf).2.no_failure (hpool ▸ hfail))
      cases hsome
      exact hvalue
    refine writes_constant he hreg hc (hreg'.entry _ _ rfl) hc' e (fun b => ?_) hfail
      fun q hq => ⟨k, c, hq, hvalue, rfl⟩
    change (if c.isWide then b.putTagged 20 k
      else if 256 ≤ k then b.putTagged 19 k else b.putPair 18 k).toList = _
    unfold Instruction.loadBytes
    split
    · simp [bytes16]
    · split <;> simp [bytes16]

theorem writes_increment {slot amount : Int} (he : Emitted own items u)
    (hreg : (Instruction.increment slot amount : Instruction LabelId).Regular)
    (e : Ends (increment slot amount) u () v) : Writes own items (.increment slot amount) u v := by
  obtain ⟨_, w₁, h₁, e⟩ := e.bind
  have hc₁ : Calm own u w₁ := h₁.keeps
  replace e := ends_get_bind.1 e
  obtain ⟨w₂, h₂, e⟩ := ends_unless.1 e
  have hc₂ : Calm own w₁ w₂ := h₂.keeps
  have hc : Calm own u w₂ := Steps.trans hc₁ hc₂
  refine .after he hc ((he.calm hc).emit_fixed hreg rfl (fun b => ?_) e)
  change (if 255 < slot ∨ 127 < amount ∨ amount < -128 then
    ((b.putByte 196).putTagged 132 slot).putShort amount
    else (b.putByte 132).putPair slot amount).toList = _
  unfold Instruction.incrementBytes
  split <;> simp [bytes16]

theorem writes_multiArray {dims : Int} (he : Emitted own items u)
    (hreg : (Instruction.multiArray desc dims : Instruction LabelId).Regular)
    (hfail : v.1.1.failure = none) (e : Ends (multiArray desc dims) u () v) :
    Writes own items (.multiArray desc dims) u v := by
  obtain ⟨k, w, h, e⟩ := e.bind
  obtain ⟨hc, hk⟩ := ends_intern (PoolM.interns_classRef desc) he.wf h
  obtain ⟨_, w', h', e⟩ := e.bind
  refine writes_constant he hreg hc hk h'.keeps e (fun b => ?_) hfail
    fun q hq => ⟨k, hq, rfl⟩
  simp [bytes16]
  rfl

/-! ## Jumps -/

/-- If a computation ends with a label, the label is new and has no position. -/
class EndsNew (x : MethodM (Option LabelId)) : Prop where
  run : ∀ u l v, Ends x u (some l) v → u.1.2.labels.size ≤ l ∧ v.1.2.positions l = none

instance : EndsNew (pure none) := ⟨fun _ _ _ e => nomatch e.pure.1⟩

instance : EndsNew (do return some (← SessionM.newLabel)) := by
  refine ⟨fun u l v e => ?_⟩
  obtain ⟨k, w, h, e⟩ := e.bind
  obtain ⟨hk, rfl⟩ := e.pure
  cases hk
  obtain ⟨rfl, hnone⟩ := ends_newLabel_lift h
  exact ⟨Nat.le_refl _, hnone⟩

theorem EndsNew.bind {α : Type} {x : MethodM α} {f : α → MethodM (Option LabelId)}
    (hx : Keeps (Calm fun _ => True) x) (hf : ∀ a, EndsNew (f a)) : EndsNew (x >>= f) := by
  refine ⟨fun u l v e => ?_⟩
  obtain ⟨a, w, h, e⟩ := e.bind
  obtain ⟨hle, hnone⟩ := (hf a).run w l v e
  exact ⟨Nat.le_trans (hx.run u a w h).size hle, hnone⟩

instance {α : Type} {x : MethodM α} {f : α → MethodM (Option LabelId)}
    [hx : Keeps (Calm fun _ => True) x] [hf : ∀ a, EndsNew (f a)] : EndsNew (x >>= f) :=
  .bind hx hf

instance {c : Prop} [Decidable c] {x y : MethodM (Option LabelId)} [hx : EndsNew x]
    [hy : EndsNew y] : EndsNew (if c then x else y) := by
  split
  · exact hx
  · exact hy

theorem endsNew_accountJump (op : Int) (target : LabelId) : EndsNew (accountJump op target) := by
  refine .bind inferInstance fun m => .bind inferInstance fun m' => ?_
  split <;> infer_instance

theorem emitted_wide (he : Emitted own items u) (hl : own l) (hop : op = 200 ∨ op = 201 ∨ op = 220)
    (happends : Appends own u w) (hw : Written own (layout 0 items ++ [.bytes [low8 op]]) w)
    (hraised : u.2.hasPending ∨ op = 220 ↔ w.2.hasPending)
    (e : Ends (emitDistance l (stop 0 items) true) w () v) :
    Emitted own (items ++ [.wide op l]) v ∧ Appends own u v := by
  obtain ⟨hv, hemits⟩ := ends_emitDistance_wide hw hl e
  rw [append_assoc] at hv
  have happends : Appends own u v := Steps.trans happends hemits.toAppends
  refine ⟨he.append_one happends hv hop trivial ?_, happends⟩
  rw [hemits.hasPending]
  simpa using hraised

theorem emitted_skip (he : Emitted own items u) (hop : shape? op = some .branch)
    (e : Ends (emit fun b => b.putTagged op 8) u () v) :
    Emitted own (items ++ [.skip op]) v ∧ Emits own u v := by
  obtain ⟨hw, hemits⟩ := ends_emit_bytes he.toWritten
    (toList_putTagged _ op 8) e
  exact ⟨he.append_calm hemits hw hop trivial (by simp), hemits⟩

theorem emitted_short (he : Emitted own items u) (hl : own l) (hop : shape? op = some .branch)
    (hfit : ∀ o, u.1.2.positions l = some o → fitsShort (o - u.2.code.size))
    (e : Ends (emit fun b => b.putByte op) u () w)
    (e' : Ends (emitDistance l u.2.code.size false) w () v) :
    Emitted own (items ++ [.short op l]) v ∧ Emits own u v := by
  obtain ⟨hw, hemits⟩ := ends_emit_short he.toWritten hl hfit e e'
  refine ⟨he.append_calm hemits hw hop (fun t ht => .inl ?_) (by simp), hemits⟩
  rw [hemits.positions] at ht
  rw [← he.codeSize]
  exact hfit t ht

theorem written_hasPending (hw : Written own ps u) :
    Written own ps (u.1, { u.2 with hasPending := true }) ∧
      Appends own u (u.1, { u.2 with hasPending := true }) :=
  ⟨⟨hw.wf, hw.base, hw.code, hw.waits, hw.labels, fun _ => rfl⟩,
    rfl, rfl, fun _ => rfl, fun _ => rfl, fun _ _ => rfl, fun _ => rfl, rfl, rfl⟩

/-- What the operation of a jump that goes too far back is: the items before its wide jump, and the
operation of that one. -/
structure OpensFar (own : LabelId → Prop) (items : List Item) (op : Nat) (u v : State)
    (before : List Item) (wide : Nat) : Prop where
  positions : v.1.2.positions = u.1.2.positions
  emitted : ∃ w, Moves own u w ∧ Emitted own (items ++ before) w ∧ Appends own w v ∧
    (w.2.hasPending ∨ wide = 220 ↔ v.2.hasPending)
  written : Written own (layout 0 (items ++ before) ++ [.bytes [low8 wide]]) v
  isWide : wide = 200 ∨ wide = 201 ∨ wide = 220
  forms : ∀ p r l t, r l = some t → t ≤ stop 0 items →
    Instruction.Forms p r (stop 0 items) (.jump op l) (before ++ [.wide wide l])
  plain : op = 167 ∨ op = 168 → before = [] ∧ wide = op + 33

theorem opensFar_plain (he : Emitted own items u) (hop : op = 167 ∨ op = 168)
    (e : Ends (emit fun b => b.putByte ((op + 33 : Nat) : Int)) u () v) :
    OpensFar own items op u v [] (op + 33) := by
  obtain ⟨hw, hemits⟩ := ends_emit_bytes he.toWritten
    (toList_putByte _ ((op + 33 : Nat) : Int)) e
  refine ⟨hemits.positions, ⟨u, Steps.refl u, ?_, hemits.toAppends, ?_⟩, ?_, by omega,
    fun p r l t ht hle => .widened hop ht hle, fun _ => ⟨rfl, rfl⟩⟩
  · rwa [append_nil]
  · rw [hemits.hasPending]
    exact or_iff_left (by omega)
  · rwa [append_nil]

theorem opensFar_inverted (he : Emitted own items u) (hop : IsCondition op)
    (e : Ends (openInverted op) u () v) :
    ∃ op' wide, OpensFar own items op u v [.skip op'] wide := by
  obtain ⟨op', hop', hcond⟩ := hop.invert
  obtain ⟨_, w, h, e⟩ := e.bind
  rw [hop'] at h
  obtain ⟨hw, hemits⟩ := emitted_skip he hcond.1 h
  replace e := ends_get_bind.1 e
  have hplain : op = 167 ∨ op = 168 → [Item.skip op'] = [] ∧ (200 : Nat) = op + 33 := by
    rintro (h | h)
    · exact absurd h hop.2.1
    · exact absurd h hop.2.2
  split at e
  · obtain ⟨hv, hemits'⟩ := ends_emit_bytes hw.toWritten
      (toList_putByte _ _) e
    have hraised : w.2.hasPending ∨ 200 = 220 ↔ v.2.hasPending := by simp [hemits'.hasPending]
    exact ⟨op', 200, hemits'.positions.trans hemits.positions,
      ⟨w, hemits.moves, hw, hemits'.toAppends, hraised⟩, hv, .inl rfl,
      fun p r l t ht hle => .inverted hop hop' (.inl rfl) ht hle, hplain⟩
  · obtain ⟨_, w', h', e⟩ := e.bind
    obtain ⟨hv, hemits'⟩ := ends_emit_bytes hw.toWritten
      (toList_putByte _ _) h'
    obtain rfl := e.modify
    obtain ⟨hv', happends⟩ := written_hasPending hv
    have happends : Appends own w _ := Steps.trans hemits'.toAppends happends
    refine ⟨op', 220, happends.positions.trans hemits.positions,
      ⟨w, hemits.moves, hw, happends, by simp⟩, hv', .inr (.inr rfl),
      fun p r l t ht hle => .inverted hop hop' (.inr rfl) ht hle, ?_⟩
    intro h
    exact absurd (hplain h).1 (cons_ne_nil _ _)

theorem opensFar_openFarJump (he : Emitted own items u) (hop : shape? op = some .branch)
    (e : Ends (openFarJump op next) u () v) :
    ∃ before wide, OpensFar own items op u v before wide := by
  unfold openFarJump at e
  split at e
  next h =>
    obtain rfl : op = 167 := Int.ofNat.inj h
    exact ⟨_, _, opensFar_plain he (.inl rfl) e⟩
  next h₁ =>
    split at e
    next h =>
      obtain rfl : op = 168 := Int.ofNat.inj h
      exact ⟨_, _, opensFar_plain he (.inr rfl) e⟩
    next h₂ =>
      have hcond : IsCondition op := ⟨hop, fun h => h₁ (h ▸ rfl), fun h => h₂ (h ▸ rfl)⟩
      cases next with
      | none =>
        obtain ⟨op', wide, h⟩ := opensFar_inverted he hcond e
        exact ⟨_, wide, h⟩
      | some l =>
        obtain ⟨_, ⟨w, m⟩, h, e⟩ := e.bind
        have hcalm : Calm own u (w, m) := h.keeps
        have hsame : Quiet u.1 w := Keeps.run _ _ _ h.lift.1
        obtain ⟨op', wide, hopens⟩ := opensFar_inverted (he.calm hcalm) hcond e
        obtain ⟨w', hmoves, hemitted⟩ := hopens.emitted
        have hpos : w.2.positions = u.1.2.positions := by
          funext k
          simp only [Session.positions, hsame.spot]
        exact ⟨_, wide, hopens.positions.trans hpos,
          ⟨w', Steps.trans (hcalm.moves he.wf he.base he.last) hmoves, hemitted⟩, hopens.written,
          hopens.isWide, hopens.forms, hopens.plain⟩

structure PutsJump (own : LabelId → Prop) (items : List Item) (i : Instruction LabelId)
    (u v : State) : Prop where
  positions : v.1.2.positions = u.1.2.positions
  writes : Writes own items i u v

theorem putsJump_far {t : Nat} (he : Emitted own items u) (hl : own l)
    (hop : shape? op = some .branch) (ht : u.1.2.positions l = some t)
    (e : Ends (openFarJump op next) u () w)
    (e' : Ends (emitDistance l (w.2.code.size - 1) true) w () v) :
    PutsJump own items (.jump op l) u v ∧
      (op = 167 ∨ op = 168 → PutsJump own items (.jump ((op + 33 : Nat) : Int) l) u v) := by
  obtain ⟨before, wide, h⟩ := opensFar_openFarJump he hop e
  obtain ⟨w', hmoves, hw', happends, hraised⟩ := h.emitted
  have hsource : w.2.code.size - 1 = stop 0 (items ++ before) := by
    rw [h.written.size, Piece.sizeAll_append, ← sizeAll_layout 0, Nat.zero_add]
    rfl
  rw [hsource] at e'
  obtain ⟨hv, happends'⟩ := emitted_wide hw' hl h.isWide happends h.written hraised e'
  rw [append_assoc] at hv
  have hpos : v.1.2.positions = u.1.2.positions := by
    rw [happends'.positions, ← h.positions, happends.positions]
  have hmoves' : Moves own u v := Steps.trans hmoves happends'.moves
  refine ⟨⟨hpos, hmoves', _, hv, h.forms _ _ _ t (hpos ▸ ht) (he.position_le hl ht)⟩,
    fun hplain => ?_⟩
  obtain ⟨rfl, rfl⟩ := h.plain hplain
  exact ⟨hpos, hmoves', _, hv, .wide (by omega) l⟩

theorem putsJump_near {isWide : Bool} (he : Emitted own items u) (hl : own l)
    (hop : shape? op = some .branch) (hwide : isWide → op = 167 ∨ op = 168)
    (hnear : ∀ t, u.1.2.positions l = some t → -32768 ≤ (t : Int) - u.2.code.size)
    (e : Ends (emit fun b => b.putByte (if isWide then (op : Int) + 33 else op)) u () w)
    (e' : Ends (emitDistance l u.2.code.size isWide) w () v) :
    PutsJump own items (.jump (if isWide then op + 33 else op : Nat) l) u v := by
  cases isWide with
  | true =>
    have hop' := hwide rfl
    obtain ⟨hw, hemits⟩ := ends_emit_bytes he.toWritten
      (toList_putByte _ ((op + 33 : Nat) : Int)) e
    rw [he.codeSize] at e'
    have hraised : u.2.hasPending ∨ op + 33 = 220 ↔ w.2.hasPending := by
      rw [hemits.hasPending]
      exact or_iff_left (by omega)
    obtain ⟨hv, happends⟩ := emitted_wide he hl (by omega) hemits.toAppends hw hraised e'
    have hop' : op + 33 = 200 ∨ op + 33 = 201 := by omega
    exact ⟨happends.positions, happends.moves, _, hv, .wide hop' l⟩
  | false =>
    have hfit : ∀ t, u.1.2.positions l = some t → fitsShort (t - u.2.code.size) := by
      intro t ht
      have hle := he.position_le hl ht
      have hnear := hnear t ht
      rw [he.codeSize] at hnear ⊢
      simp only [fitsShort, Bool.and_eq_true, decide_eq_true_eq]
      omega
    obtain ⟨hv, hemits⟩ := emitted_short he hl hop hfit e e'
    exact ⟨hemits.positions, hemits.moves, _, hv, .short hop l⟩

theorem putsJump_putJump {isWide : Bool} (he : Emitted own items u) (hl : own l)
    (hop : shape? op = some .branch) (hwide : isWide → op = 167 ∨ op = 168)
    (e : Ends (putJump op isWide l next) u () v) :
    PutsJump own items (.jump (if isWide then op + 33 else op : Nat) l) u v := by
  obtain ⟨b, ⟨u₁, m₁⟩, h, e⟩ := e.bind
  obtain ⟨h, rfl⟩ := h.lift
  obtain ⟨hb, rfl⟩ := SessionM.ends_label h
  have hspot := Session.spot_of_label hb
  obtain ⟨n, _, h, e⟩ := e.bind
  obtain ⟨rfl, rfl⟩ := ends_codeSize.1 h
  split at e
  next hfar =>
    obtain ⟨_, w, h, e⟩ := e.bind
    obtain ⟨n, _, h', e⟩ := e.bind
    obtain ⟨rfl, rfl⟩ := ends_codeSize.1 h'
    have ht : u.1.2.positions l = some b.position := by
      rw [Session.positions_eq_some, hspot]
      exact ⟨hfar.1, rfl⟩
    obtain ⟨hshort, hlong⟩ := putsJump_far he hl hop ht h e
    cases isWide with
    | true => exact hlong (hwide rfl)
    | false => exact hshort
  next hnear =>
    obtain ⟨_, w, h, e⟩ := e.bind
    refine putsJump_near he hl hop hwide (fun t ht => ?_) h e
    rw [Session.positions_eq_some, hspot] at ht
    obtain ⟨hres, rfl⟩ := ht
    exact Int.not_lt.1 fun hlt => hnear ⟨hres, hlt⟩

theorem writes_afterJump {op : Int} (hw : Writes own items i u w)
    (hnext : ∀ l, next = some l → own l ∧ w.1.2.positions l = none)
    (e : Ends (afterJump op next) w () v) : Writes own items i u v := by
  replace e := ends_get_bind.1 e
  split at e
  next block =>
    cases next with
    | none => exact hw.calm ((inferInstance : Keeps (Calm own) _).run _ _ _ e)
    | some l =>
      obtain ⟨_, w', h, e⟩ := e.bind
      obtain ⟨hl, hnone⟩ := hnext l rfl
      exact (hw.place hl hnone h).calm ((inferInstance : Keeps (Calm own) _).run _ _ _ e)
  next =>
    obtain ⟨-, rfl⟩ := e.pure
    exact hw

theorem wideBranch_iff : shape? op = some .wideBranch ↔ op = 200 ∨ op = 201 := by
  have hall : ∀ op < 221, shape? op = some .wideBranch ↔ op = 200 ∨ op = 201 := by
    decide +kernel
  constructor
  · intro h
    exact (hall op (Nat.lt_succ_of_le (le_of_shape? h))).1 h
  · intro h
    exact (hall op (by omega)).2 h

theorem writes_jump {op : Int} (he : Emitted own items u) (hl : own l)
    (hreg : (Instruction.jump op l).Regular) (e : Ends (jump op l) u () v) :
    Writes own items (.jump op l) u v := by
  -- the operation of the short form, and whether the jump is wide
  obtain ⟨n, isWide, hn, hwide, hop, hshort, hlong⟩ : ∃ (n : Nat) (isWide : Bool),
      shape? n = some .branch ∧ (isWide → n = 167 ∨ n = 168) ∧
        op = (if isWide then n + 33 else n : Nat) ∧
        (if (200 : Int) ≤ op then op - 33 else op) = n ∧ decide ((200 : Int) ≤ op) = isWide := by
    rcases hreg with ⟨n, rfl, hn⟩ | ⟨n, rfl, hn⟩
    · have hlt := branch_iff.1 hn
      exact ⟨n, false, hn, nofun, rfl, if_neg (by omega), decide_eq_false (by omega)⟩
    · have hcases := wideBranch_iff.1 hn
      exact ⟨n - 33, true, branch_iff.2 (by omega), fun _ => by omega, by simp; omega,
        by rw [if_pos (by omega)]; omega, decide_eq_true (by omega)⟩
  change Ends (do
    let next ← accountJump (if (200 : Int) ≤ op then op - 33 else op) l
    putJump (if (200 : Int) ≤ op then op - 33 else op) (decide ((200 : Int) ≤ op)) l next
    afterJump (if (200 : Int) ≤ op then op - 33 else op) next) u () v at e
  rw [hshort, hlong] at e
  obtain ⟨next, w, h, e⟩ := e.bind
  have hcalm : Calm own u w := h.keeps
  have hnext : ∀ k, next = some k → own k ∧ w.1.2.positions k = none := by
    rintro k rfl
    obtain ⟨hle, hnone⟩ := (endsNew_accountJump n l).run _ _ _ h
    exact ⟨he.base k hle, hnone⟩
  obtain ⟨_, w', h', e⟩ := e.bind
  have hputs := putsJump_putJump (he.calm hcalm) hl hn hwide h'
  rw [← hop] at hputs
  exact writes_afterJump (.after he hcalm hputs.writes)
    (fun k hk => hputs.positions ▸ hnext k hk) e

/-! ## Switches -/

theorem ends_openSwitch (he : Emitted own items u) (e : Ends (openSwitch op) u source v) :
    source = stop 0 items ∧
      Written own (layout 0 items ++ [.bytes (switchHead op (stop 0 items))]) v ∧
      Emits own u v := by
  obtain ⟨n, _, h, e⟩ := e.bind
  obtain ⟨rfl, rfl⟩ := ends_codeSize.1 h
  obtain ⟨_, w, h, e⟩ := e.bind
  obtain ⟨rfl, rfl⟩ := e.pure
  refine ⟨he.codeSize, ends_emit_bytes he.toWritten ?_ h⟩
  have hsize : (u.2.code.putByte op).size = stop 0 items + 1 := by
    rw [← he.codeSize]
    simpa [Buffer.toList, Buffer.size] using
      congrArg length (toList_putByte u.2.code op)
  have hpad : (4 - (stop 0 items + 1) % 4) % 4 = padding (stop 0 items) := by
    unfold padding
    omega
  simp only [toList_putList, toList_putByte, hsize, hpad, switchHead,
    append_assoc, cons_append, nil_append]

theorem ends_forIn_wide {ls : List LabelId} (hw : Written own ps u) (hls : ∀ l ∈ ls, own l)
    (e : Ends (forIn ls PUnit.unit fun l _ => do
      emitDistance l source true
      return ForInStep.yield PUnit.unit : MethodM PUnit) u ⟨⟩ v) :
    Written own (ps ++ ls.map (.wide source)) v ∧ Emits own u v := by
  induction ls generalizing ps u with
  | nil =>
    obtain ⟨-, rfl⟩ := e.pure
    exact ⟨by simpa using hw, Steps.refl u⟩
  | cons l ls ih =>
    rw [forIn_cons] at e
    simp only [ends_bind, ends_pure] at e
    obtain ⟨_, w, ⟨_, _, h, rfl, rfl⟩, e⟩ := e
    obtain ⟨hw', hemits⟩ := ends_emitDistance_wide hw (hls l mem_cons_self) h
    obtain ⟨hv, hemits'⟩ := ih hw' (fun k hk => hls k (mem_cons_of_mem l hk)) e
    refine ⟨?_, Steps.trans hemits hemits'⟩
    rwa [append_assoc] at hv

theorem ends_forIn_rows {rows : List (Int × LabelId)} (hw : Written own ps u)
    (hls : ∀ row ∈ rows, own row.2) (e : Ends (forIn rows PUnit.unit fun row _ => do
      emit fun b => b.putInt row.1
      emitDistance row.2 source true
      return ForInStep.yield PUnit.unit : MethodM PUnit) u ⟨⟩ v) :
    Written own (ps ++ rows.flatMap fun row => [.bytes (bytes32 row.1), .wide source row.2]) v ∧
      Emits own u v := by
  induction rows generalizing ps u with
  | nil =>
    obtain ⟨-, rfl⟩ := e.pure
    exact ⟨by simpa using hw, Steps.refl u⟩
  | cons row rows ih =>
    rw [forIn_cons] at e
    simp only [ends_bind, ends_pure] at e
    obtain ⟨_, w, ⟨_, w₁, h₁, _, _, h₂, rfl, rfl⟩, e⟩ := e
    obtain ⟨hw₁, hemits₁⟩ := ends_emit_bytes hw (toList_putList _ _) h₁
    obtain ⟨hw₂, hemits₂⟩ := ends_emitDistance_wide hw₁ (hls row mem_cons_self) h₂
    obtain ⟨hv, hemits₃⟩ := ih hw₂ (fun k hk => hls k (mem_cons_of_mem row hk)) e
    refine ⟨?_, Steps.trans hemits₁ (Steps.trans hemits₂ hemits₃)⟩
    rw [append_assoc, append_assoc] at hv
    exact hv

theorem writes_tableSwitch {low high : Int} {fallback : LabelId} {targets : List LabelId}
    (he : Emitted own items u) (hreg : (Instruction.tableSwitch low high fallback targets).Regular)
    (hl : ∀ l ∈ fallback :: targets, own l)
    (e : Ends (tableSwitch low high fallback targets) u () v) :
    Writes own items (.tableSwitch low high fallback targets) u v := by
  obtain ⟨source, w₁, h₁, e⟩ := e.bind
  obtain ⟨rfl, hw₁, hemits₁⟩ := ends_openSwitch he h₁
  obtain ⟨_, w₂, h₂, e⟩ := e.bind
  obtain ⟨hw₂, hemits₂⟩ := ends_emitDistance_wide hw₁ (hl _ mem_cons_self) h₂
  obtain ⟨_, w₃, h₃, e⟩ := e.bind
  obtain ⟨hw₃, hemits₃⟩ := ends_emit_bytes hw₂
    (show ((_ : Buffer).putInt high).toList = _ ++ (bytes32 low ++ bytes32 high) by
      simp [putInt]) h₃
  obtain ⟨_, w₄, h₄, e⟩ := e.bind
  obtain ⟨hw₄, hemits₄⟩ := ends_forIn_wide hw₃ (fun l hl' => hl l (mem_cons_of_mem _ hl')) h₄
  have hemits : Emits own u w₄ :=
    Steps.trans hemits₁ (Steps.trans hemits₂ (Steps.trans hemits₃ hemits₄))
  have hw : Writes own items (.tableSwitch low high fallback targets) u w₄ := by
    refine ⟨hemits.moves, _, he.append_calm (i := .table low high fallback targets) hemits ?_ hreg
      trivial (by simp), .table ..⟩
    rw [append_assoc, append_assoc, append_assoc] at hw₄
    exact hw₄
  exact hw.calm e.keeps

theorem writes_lookupSwitch {fallback : LabelId} {keys : List Int} {targets : List LabelId}
    (he : Emitted own items u) (hreg : (Instruction.lookupSwitch fallback keys targets).Regular)
    (hl : ∀ l ∈ fallback :: targets, own l)
    (e : Ends (lookupSwitch fallback keys targets) u () v) :
    Writes own items (.lookupSwitch fallback keys targets) u v := by
  unfold lookupSwitch at e
  rw [if_neg (by simpa using hreg.2.1)] at e
  obtain ⟨source, w₁, h₁, e⟩ := e.bind
  obtain ⟨rfl, hw₁, hemits₁⟩ := ends_openSwitch he h₁
  obtain ⟨_, w₂, h₂, e⟩ := e.bind
  obtain ⟨hw₂, hemits₂⟩ := ends_emitDistance_wide hw₁ (hl _ mem_cons_self) h₂
  obtain ⟨_, w₃, h₃, e⟩ := e.bind
  obtain ⟨hw₃, hemits₃⟩ := ends_emit_bytes hw₂ (toList_putList _ _) h₃
  obtain ⟨_, w₄, h₄, e⟩ := e.bind
  obtain ⟨hw₄, hemits₄⟩ := ends_forIn_rows hw₃
    (fun row hrow => hl row.2 (mem_cons_of_mem _ (of_mem_zip hrow).2)) h₄
  have hemits : Emits own u w₄ :=
    Steps.trans hemits₁ (Steps.trans hemits₂ (Steps.trans hemits₃ hemits₄))
  have hw : Writes own items (.lookupSwitch fallback keys targets) u w₄ := by
    refine ⟨hemits.moves, _, he.append_calm (i := .lookup fallback keys targets) hemits ?_ hreg
      trivial nofun, .lookup ..⟩
    rw [append_assoc, append_assoc, append_assoc] at hw₄
    exact hw₄
  exact hw.calm e.keeps

theorem writes_write (he : Emitted own items u) (hreg : i.Regular) (hl : ∀ l ∈ i.targets, own l)
    (hfail : v.1.1.failure = none) (e : Ends i.write u () v) : Writes own items i u v := by
  cases i with
  | plain op => exact writes_plain he hreg e
  | push op n => exact writes_push he hreg e
  | var op n => exact writes_var he hreg e
  | type op name => exact writes_type he hreg hfail e
  | field op owner name desc => exact writes_field he hreg hfail e
  | invoke op owner name desc ofInterface => exact writes_invoke he hreg hfail e
  | dynamic name desc method args => exact writes_dynamic he hreg hfail e
  | jump op l => exact writes_jump he (hl l mem_cons_self) hreg e
  | constant x => exact writes_load he hreg hfail e
  | increment slot amount => exact writes_increment he hreg e
  | tableSwitch low high fallback targets => exact writes_tableSwitch he hreg hl e
  | lookupSwitch fallback keys targets => exact writes_lookupSwitch he hreg hl e
  | multiArray desc dims => exact writes_multiArray he hreg hfail e

end MethodM

end ClassAssembler
