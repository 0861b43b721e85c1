import ClassAssembler.Proofs.Emission

/-!
# Work on the code of a method

Whatever an instruction or a label does to a method is made of few kinds of steps: constants and
frames are registered, a label is changed, the account of the blocks is kept, and the code grows.  A
relation between states that tolerates these steps (`Method.CodeRelation`) holds across every
instruction and every label.
-/

namespace ClassAssembler

set_option synthInstance.maxSize 400

namespace Buffer

/-- A change of a buffer that does not make it shorter. -/
class Lengthens (f : Buffer → Buffer) : Prop where
  le : ∀ b, b.size ≤ (f b).size

theorem lengthens_of_append {f g : Buffer → Buffer} (hf : Lengthens f)
    (h : ∀ b, ∃ bs, (g b).toList = (f b).toList ++ bs) : Lengthens g := by
  refine ⟨fun b => Nat.le_trans (hf.le b) ?_⟩
  obtain ⟨bs, hbs⟩ := h b
  have hlength : (g b).size = ((f b).toList ++ bs).length := congrArg List.length hbs
  rw [hlength, List.length_append]
  exact Nat.le_add_right _ _

section

variable {f g : Buffer → Buffer} [hf : Lengthens f] [hg : Lengthens g]

instance lengthens_id : Lengthens fun b => b := ⟨fun _ => Nat.le_refl _⟩

instance lengthens_putByte (v : Int) : Lengthens fun b => (f b).putByte v :=
  lengthens_of_append hf fun _ => ⟨_, toList_putByte ..⟩

instance lengthens_putPair (v w : Int) : Lengthens fun b => (f b).putPair v w :=
  lengthens_of_append hf fun _ => ⟨_, toList_putPair ..⟩

instance lengthens_putShort (v : Int) : Lengthens fun b => (f b).putShort v :=
  lengthens_of_append hf fun _ => ⟨_, toList_putShort ..⟩

instance lengthens_putTagged (tag v : Int) : Lengthens fun b => (f b).putTagged tag v :=
  lengthens_of_append hf fun _ => ⟨_, toList_putTagged ..⟩

instance lengthens_putList (xs : Buffer → List UInt8) : Lengthens fun b => (f b).putList (xs b) :=
  lengthens_of_append hf fun _ => ⟨_, toList_putList ..⟩

instance lengthens_putInt (v : Int) : Lengthens fun b => (f b).putInt v := by
  unfold putInt
  infer_instance

instance lengthens_ite (c : Prop) [Decidable c] : Lengthens fun b => if c then f b else g b := by
  refine ⟨fun b => ?_⟩
  split
  · exact hf.le b
  · exact hg.le b

end

/-! ## Bytes that are filled in -/

theorem size_patch {b b' : Buffer} {i : Nat} {v : UInt8} (h : b.patch i v = .ok b') :
    b'.size = b.size := by
  unfold patch at h
  split at h
  · cases h
    exact Array.size_setIfInBounds
  · split at h <;> cases h
    rfl

theorem size_patchList {b b' : Buffer} {i : Nat} {vs : List UInt8}
    (h : b.patchList i vs = .ok b') : b'.size = b.size := by
  induction vs generalizing b i with
  | nil =>
    cases h
    rfl
  | cons v vs ih =>
    obtain ⟨c, hc, h⟩ := Checked.bind_eq_ok.1 h
    rw [ih h, size_patch hc]

theorem size_settleJump {b b' : Buffer} {position : Nat} {j : PendingJump} {pending : Bool}
    (h : b.settleJump position j = .ok (b', pending)) : b'.size = b.size := by
  unfold settleJump at h
  dsimp only at h
  split at h
  · obtain ⟨c, hc, h⟩ := Checked.bind_eq_ok.1 h
    cases h
    exact size_patchList hc
  · split at h
    · obtain ⟨c, hc, h⟩ := Checked.bind_eq_ok.1 h
      cases h
      exact size_patchList hc
    · split at h
      · cases h
      · obtain ⟨op, -, h⟩ := Checked.bind_eq_ok.1 h
        obtain ⟨c, hc, h⟩ := Checked.bind_eq_ok.1 h
        obtain ⟨d, hd, h⟩ := Checked.bind_eq_ok.1 h
        cases h
        rw [size_patchList hd, size_patch hc]

theorem size_settleJumps {b b' : Buffer} {position : Nat} {js : List PendingJump}
    {pending pending' : Bool} (h : b.settleJumps position js pending = .ok (b', pending')) :
    b'.size = b.size := by
  induction js generalizing b pending with
  | nil =>
    cases h
    rfl
  | cons j js ih =>
    obtain ⟨⟨c, p⟩, hc, h⟩ := Checked.bind_eq_ok.1 h
    rw [ih h, size_settleJump hc]

end Buffer

namespace Method

/-- A method without its code and without the account of its blocks. -/
def uncoded (m : Method) : Method :=
  { m with
    code := {}, maxStack := 0, maxLocals := 0, lineRows := #[], lastBlock := none
    currentBlock := none, subroutineCount := 0, height := 0, peak := 0, forward := #[]
    hasPending := false }

/-- A relation that tolerates the steps that work on the code is made of. -/
class CodeRelation (R : State → State → Prop) : Prop where
  session : ∀ {s t : Pool × Session} (m : Method), Quiet s t → R (s, m) (t, m)
  label : ∀ (s : Pool × Session) (m : Method) (l : LabelId) (f : Label → Label),
    R (s, m) ((s.1, s.2.changeLabel l f), m)
  method : ∀ (s : Pool × Session) {m m' : Method}, m'.uncoded = m.uncoded →
    m.code.size ≤ m'.code.size → R (s, m) (s, m')

/-- A change of a method that concerns the account of its blocks. -/
class Accounting (f : Method → Method) : Prop where
  uncoded : ∀ m, (f m).uncoded = m.uncoded
  code : ∀ m, (f m).code = m.code

instance (maxStack maxLocals height peak : Method → Int) (subroutineCount : Method → Nat)
    (lineRows : Method → Array LineRow) (lastBlock currentBlock : Method → Option LabelId)
    (forward : Method → Array LabelId) (hasPending : Method → Bool) :
    Accounting fun m =>
      { m with
        maxStack := maxStack m, maxLocals := maxLocals m, height := height m, peak := peak m
        subroutineCount := subroutineCount m, lineRows := lineRows m, lastBlock := lastBlock m
        currentBlock := currentBlock m, forward := forward m, hasPending := hasPending m } :=
  ⟨fun _ => rfl, fun _ => rfl⟩

end Method

open Method

section

variable {R : State → State → Prop} [Steps R] [hR : CodeRelation R] {α : Type}

instance code_lift {n : Type → Type} [MonadLiftT n SessionM] {x : n α}
    [hx : Keeps Quiet (liftM x : SessionM α)] : Keeps R (liftM x : MethodM α) :=
  keeps_lift hx fun _ _ m h => hR.session m h

instance code_modifyLabel (l : LabelId) (f : Label → Label) :
    Keeps R (liftM (SessionM.modifyLabel l f) : MethodM Unit) := by
  refine ⟨fun ⟨s, m⟩ _ ⟨t, m'⟩ h => ?_⟩
  obtain ⟨h, rfl⟩ := h.lift
  obtain rfl := SessionM.ends_modifyLabel.1 h
  exact hR.label s m l f

instance code_modify (f : Method → Method) [hf : Accounting f] :
    Keeps R (modify f : MethodM PUnit) := by
  refine ⟨fun u _ v h => ?_⟩
  obtain rfl := h.modify
  exact hR.method u.1 (hf.uncoded u.2) (by rw [hf.code])

instance code_getThe_session : Keeps R (getThe Session : MethodM Session) := by
  refine ⟨fun u _ v h => ?_⟩
  simp only [ends_getThe_lift, ends_getThe] at h
  obtain ⟨⟨-, h₁⟩, h₂⟩ := h
  obtain rfl : u = v := Prod.ext h₁ h₂
  exact Steps.refl u

end

namespace MethodM

variable {R : State → State → Prop} [Steps R] [hR : CodeRelation R]

instance code_emit (f : Buffer → Buffer) [hf : Buffer.Lengthens f] : Keeps R (emit f) := by
  refine ⟨fun u _ v h => ?_⟩
  obtain rfl := ends_emit.1 h
  exact hR.method u.1 rfl (hf.le u.2.code)

instance code_codeSize : Keeps R codeSize := by
  unfold codeSize
  infer_instance

/-! ## The account of the blocks -/

instance code_needLocals (n : Int) : Keeps R (needLocals n) := by
  refine ⟨fun u _ v h => ?_⟩
  obtain rfl := h.modify
  apply hR.method u.1 <;> split <;> rfl

instance code_changeHeight (delta : Int) : Keeps R (changeHeight delta) := by
  unfold changeHeight
  infer_instance

instance code_stackChange (op : Int) : Keeps R (stackChange op) := by
  unfold stackChange
  split <;> infer_instance

instance code_follow (block : LabelId) (op arg : Int) (c : Option Constant) :
    Keeps R (follow block op arg c) := by
  unfold follow
  infer_instance

instance code_account (op arg : Int) (c : Option Constant) (heights : LabelId → MethodM Unit)
    [∀ l, Keeps R (heights l)] : Keeps R (account op arg c heights) := by
  refine keeps_then fun m => ?_
  split <;> infer_instance

instance code_chainBlock (l : LabelId) (position : Nat) : Keeps R (chainBlock l position) := by
  refine keeps_then fun m => ?_
  split <;> infer_instance

instance code_beginFrameBlock (l : LabelId) : Keeps R (beginFrameBlock l) := by
  refine keeps_then fun b => keeps_then fun m => ?_
  split <;> infer_instance

instance code_beginHeightBlock (l : LabelId) : Keeps R (beginHeightBlock l) := by
  refine keeps_then fun m => ?_
  dsimp only
  split <;> split <;> infer_instance

instance code_continueInserted (l : LabelId) : Keeps R (continueInserted l) := by
  refine keeps_then fun m => ?_
  split
  · infer_instance
  · refine keeps_then fun b => ?_
    split <;> infer_instance

instance code_chainNewBlock : Keeps R chainNewBlock := by
  unfold chainNewBlock placeNewBlock
  refine keeps_then fun l => keeps_then fun m => ?_
  split <;> infer_instance

instance code_endBlock (block : LabelId) : Keeps R (endBlock block) := by
  unfold endBlock
  infer_instance

instance code_accountJump (op : Int) (target : LabelId) : Keeps R (accountJump op target) := by
  refine keeps_then fun m => keeps_then fun m' => ?_
  split <;> infer_instance

instance code_accountSwitch (targets : List LabelId) : Keeps R (accountSwitch targets) := by
  refine keeps_then fun m => ?_
  split
  · refine keeps_then fun m' => ?_
    dsimp only
    split <;> infer_instance
  · infer_instance

instance code_computeMaxStack : Keeps R computeMaxStack := by
  refine keeps_then fun m => ?_
  split <;> infer_instance

/-! ## Labels -/

instance code_resolveLabel (l : LabelId) : Keeps R (resolveLabel l) := by
  refine ⟨fun ⟨s, m⟩ _ v e => ?_⟩
  obtain ⟨-, b, pending, hsettle, rfl⟩ := ends_resolveLabel e
  exact Steps.trans (hR.label s m l _)
    (hR.method _ rfl (Nat.le_of_eq (Buffer.size_settleJumps hsettle).symm))

instance code_placeLabel (l : LabelId) : Keeps R (placeLabel l) := by
  refine keeps_then fun _ => keeps_then fun m => ?_
  split <;> infer_instance

instance code_emitDistance (l : LabelId) (source : Nat) (isWide : Bool) :
    Keeps R (emitDistance l source isWide) := by
  refine keeps_then fun b => ?_
  split <;> infer_instance

instance code_label (l : LabelId) : Keeps R (label l) := by
  refine keeps_then fun b => ?_
  split <;> infer_instance

instance code_line (number : Int) (start : LabelId) : Keeps R (line number start) := by
  unfold line
  infer_instance

/-! ## Instructions -/

instance code_plain (op : Int) : Keeps R (plain op) := by
  refine keeps_then fun _ => keeps_then fun _ =>
    keeps_then fun m => ?_
  split <;> infer_instance

instance code_push (op operand : Int) : Keeps R (push op operand) := by
  unfold push
  infer_instance

instance lengthens_putVar (op slot : Int) : Buffer.Lengthens (putVar op slot) := by
  unfold putVar
  infer_instance

instance code_var (op slot : Int) : Keeps R (var op slot) := by
  refine keeps_then fun _ => keeps_then fun m => ?_
  dsimp only
  infer_instance

instance code_type (op : Int) (name : Text) : Keeps R (type op name) := by
  unfold type
  infer_instance

instance code_field (op : Int) (owner name desc : Text) : Keeps R (field op owner name desc) := by
  unfold field
  infer_instance

instance code_invoke (op : Int) (owner name desc : Text) (ofInterface : Bool) :
    Keeps R (invoke op owner name desc ofInterface) := by
  unfold invoke
  infer_instance

theorem code_dynamic {name desc : Text} {method : Handle} {args : List Value}
    (h : Keeps R (liftM (PoolM.dynamicEntry name desc method args) : MethodM (Nat × Constant))) :
    Keeps R (dynamic name desc method args) := by
  refine Keeps.bind h fun r => ?_
  infer_instance

instance code_constant (v : Value) : Keeps R (constant v) := by
  refine keeps_then fun r => ?_
  split <;> infer_instance

instance code_increment (slot amount : Int) : Keeps R (increment slot amount) := by
  unfold increment
  infer_instance

instance code_multiArray (desc : Text) (dims : Int) : Keeps R (multiArray desc dims) := by
  unfold multiArray
  infer_instance

instance code_openInverted (op : Int) : Keeps R (openInverted op) := by
  unfold openInverted
  infer_instance

instance code_openFarJump (op : Int) (next : Option LabelId) : Keeps R (openFarJump op next) := by
  unfold openFarJump
  split
  · infer_instance
  · split
    · infer_instance
    · cases next <;> infer_instance

instance code_putJump (op : Int) (isWide : Bool) (target : LabelId) (next : Option LabelId) :
    Keeps R (putJump op isWide target next) := by
  unfold putJump
  infer_instance

instance code_afterJump (op : Int) (next : Option LabelId) : Keeps R (afterJump op next) := by
  refine keeps_then fun m => ?_
  split
  · cases next <;> infer_instance
  · infer_instance

instance code_jump (op : Int) (target : LabelId) : Keeps R (jump op target) := by
  unfold jump
  infer_instance

instance code_openSwitch (op : Int) : Keeps R (openSwitch op) := by
  unfold openSwitch
  infer_instance

instance code_tableSwitch (low high : Int) (fallback : LabelId) (targets : List LabelId) :
    Keeps R (tableSwitch low high fallback targets) := by
  unfold tableSwitch
  infer_instance

instance code_lookupSwitch (fallback : LabelId) (keys : List Int) (targets : List LabelId) :
    Keeps R (lookupSwitch fallback keys targets) := by
  unfold lookupSwitch
  infer_instance

/-! ## Events -/

instance code_isLive (op : String) : Keeps R (isLive op) := by
  unfold isLive
  infer_instance

instance code_isInCode (op : String) : Keeps R (isInCode op) := by
  unfold isInCode
  infer_instance

end MethodM

theorem Instruction.code_write {R : State → State → Prop} [Steps R] [CodeRelation R]
    {i : Instruction LabelId} (h : ∀ name desc method args, i = .dynamic name desc method args →
      Keeps R (liftM (PoolM.dynamicEntry name desc method args) : MethodM (Nat × Constant))) :
    Keeps R i.write := by
  cases i with
  | dynamic name desc method args => exact MethodM.code_dynamic (h name desc method args rfl)
  | _ =>
    unfold Instruction.write
    infer_instance

end ClassAssembler
