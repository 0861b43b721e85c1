import ClassAssembler.Method.Emit
import ClassAssembler.Proofs.Machine

/-!
# How instructions are spelled

The bytes of an instruction without targets follow from the instruction and the indices of its
constants (`Instruction.Spelled`).  An instruction is regular if its operands are in the range that
its operation has for them.  The machine reads the bytes of a regular instruction as that
instruction (`Instruction.Spelled.decode?`).
-/

namespace ClassAssembler

open Machine Buffer Option

variable {method : Handle} {args : List Value} {n : Nat} {p : Pool}

def IsInt32 (v : Int) : Prop := -0x80000000 ≤ v ∧ v ≤ 0x7fffffff

def Value.Readable (v : Value) : Prop := ∀ c, v.constant? = some c → valueOf? c = some v

def Pool.Has (p : Pool) (i : Nat) (c : Constant) : Prop := p.at? i = some c ∧ i < 65536

theorem Pool.Has.mono {q : Pool} (h : p.Extends q) {i : Nat} {c : Constant} (hc : p.Has i c) :
    q.Has i c :=
  ⟨h.at? hc.1, hc.2⟩

theorem Pool.Wf.has (hp : p.Wf) (hf : p.failure = none) {i : Nat} {c : Constant}
    (h : p.at? i = some c) : p.Has i c :=
  ⟨h, hp.at?_lt hf h⟩

/-- The bootstrap method with a number is a handle with arguments. -/
def Pool.Calls (p : Pool) (n : Nat) (method : Handle) (args : List Value) : Prop :=
  PoolM.isHandleKind method.kind ∧
    ∃ cs, List.Forall₂ (fun v c => v.constant? = some c) args cs ∧
      p.Site n (PoolM.handleConstant method) cs

theorem Pool.Calls.mono {q : Pool} (h : p.Extends q) (hc : p.Calls n method args) :
    q.Calls n method args := by
  obtain ⟨hkind, cs, hcs, hsite⟩ := hc
  exact ⟨hkind, cs, hcs, hsite.mono h⟩

theorem Pool.Calls.unique (hp : p.Wf) {n' : Nat} (h : p.Calls n method args)
    (h' : p.Calls n' method args) : n = n' := by
  obtain ⟨-, cs, hcs, hsite⟩ := h
  obtain ⟨-, cs', hcs', hsite'⟩ := h'
  have hright : Relator.RightUnique fun (v : Value) (c : Constant) => v.constant? = some c :=
    fun v c c' h h' => some.inj (h.symm.trans h')
  obtain rfl : cs = cs' := hright.forall₂ hcs hcs'
  exact hsite.injective hp hsite'

theorem handleOf?_handleConstant {h : Handle} (hkind : PoolM.isHandleKind h.kind) :
    handleOf? (PoolM.handleConstant h) = some h := by
  have hnat : ((h.kind.toNat : Nat) : Int) = h.kind := Int.toNat_of_nonneg <| by
    have := hkind.1
    simp only [Handle.getField] at this
    omega
  simp [PoolM.handleConstant, handleOf?, hnat]

theorem values?_of_forall₂ {is : List Nat} {vs : List Value} {cs : List Constant}
    (his : List.Forall₂ (fun i c => p.at? i = some c) is cs)
    (hvs : List.Forall₂ (fun v c => v.constant? = some c) vs cs) (hread : ∀ v ∈ vs, v.Readable) :
    values? p is = some vs := by
  induction his generalizing vs with
  | nil =>
    cases hvs
    rfl
  | cons hi _ ih =>
    cases hvs with
    | @cons v _ vs _ hv hvs =>
      rw [values?]
      refine bind_eq_some_iff.2 ⟨_, hi, bind_eq_some_iff.2
        ⟨v, hread v List.mem_cons_self _ hv, bind_eq_some_iff.2 ⟨vs, ?_, rfl⟩⟩⟩
      exact ih hvs fun w hw => hread w (List.mem_cons_of_mem v hw)

theorem Pool.Calls.bootstrap? (h : p.Calls n method args) (hread : ∀ v ∈ args, v.Readable) :
    bootstrap? p n = some (method, args) := by
  obtain ⟨hkind, cs, hcs, handle, is, hlinks, hmethod, his⟩ := h
  have hwords : (bootstrapWords n (wordsOf p.bootstrapBytes.toList)).toOption =
      some (handle, is) := by
    rw [show bootstrapWords n (wordsOf p.bootstrapBytes.toList) = .ok (handle, is) from hlinks]
    rfl
  rw [Machine.bootstrap?]
  exact bind_eq_some_iff.2 ⟨_, hwords, bind_eq_some_iff.2 ⟨_, hmethod,
    bind_eq_some_iff.2 ⟨_, handleOf?_handleConstant hkind,
      bind_eq_some_iff.2 ⟨_, values?_of_forall₂ his hcs hread, rfl⟩⟩⟩⟩

namespace Instruction

variable {T : Type}

variable {c : Constant} {x : Instruction Int} {bs : List UInt8} {k op : Nat} {p : Pool} {s : Shape}

def HasShape (op : Int) (s : Shape) : Prop := ∃ n : Nat, op = n ∧ shape? n = some s

def Regular : Instruction T → Prop
  | plain op => HasShape op .bare
  | push op v =>
    (op = 16 ∨ op = 188) ∧ -128 ≤ v ∧ v ≤ 127 ∨ op = 17 ∧ -32768 ≤ v ∧ v ≤ 32767
  | var op slot => HasShape op .slot ∧ 0 ≤ slot ∧ slot ≤ 65535
  | type op _ => HasShape op .type
  | field op _ _ _ => HasShape op .field
  | invoke op _ _ _ _ => HasShape op .method ∨ op = 185
  | dynamic _ _ _ args => args.length < 65536 ∧ ∀ v ∈ args, v.Readable
  | jump op _ => HasShape op .branch ∨ HasShape op .wideBranch
  | constant v => v.Readable
  | increment slot amount => 0 ≤ slot ∧ slot ≤ 65535 ∧ -32768 ≤ amount ∧ amount ≤ 32767
  | tableSwitch low high _ targets =>
    IsInt32 low ∧ IsInt32 high ∧ low ≤ high ∧ high - low + 1 = targets.length
  | lookupSwitch _ keys targets =>
    (∀ k ∈ keys, IsInt32 k) ∧ keys.length = targets.length ∧ targets.length ≤ 0x7fffffff
  | multiArray _ dims => 0 ≤ dims ∧ dims ≤ 255

@[simp] theorem regular_mapTargets {U : Type} (f : T → U) (i : Instruction T) :
    (i.mapTargets f).Regular ↔ i.Regular := by
  cases i <;> simp [mapTargets, Regular]

def loadBytes (c : Constant) (i : Nat) : List UInt8 :=
  if c.isWide then low8 20 :: bytes16 i
  else if 256 ≤ i then low8 19 :: bytes16 i
  else [low8 18, low8 i]

/-- The operation that is an access to one of the first local variables. -/
def fixedOp (op slot : Int) : Int :=
  if op < 54 then 26 + (op - 21) * 4 + slot else 59 + (op - 54) * 4 + slot

def varBytes (op slot : Int) : List UInt8 :=
  if slot < 4 ∧ op ≠ 169 then [low8 (fixedOp op slot)]
  else if 256 ≤ slot then low8 196 :: low8 op :: bytes16 slot
  else [low8 op, low8 slot]

def incrementBytes (slot amount : Int) : List UInt8 :=
  if 255 < slot ∨ 127 < amount ∨ amount < -128 then
    low8 196 :: low8 132 :: (bytes16 slot ++ bytes16 amount)
  else [low8 132, low8 slot, low8 amount]

def Spelled (p : Pool) : Instruction T → List UInt8 → Prop
  | plain op, bs => bs = [low8 op]
  | push op v, bs =>
    bs = if op = 17 then low8 op :: bytes16 v else [low8 op, low8 v]
  | var op slot, bs => bs = varBytes op slot
  | type op name, bs => ∃ i, p.Has i (.classRef name) ∧ bs = low8 op :: bytes16 i
  | field op owner name desc, bs =>
    ∃ i, p.Has i (.fieldRef owner name desc) ∧ bs = low8 op :: bytes16 i
  | invoke op owner name desc ofInterface, bs =>
    ∃ i size, p.Has i (PoolM.methodConstant owner name desc ofInterface) ∧
      JavaType.callSize desc = .ok size ∧
      bs = low8 op :: (bytes16 i ++
        if op = 185 then [low8 size.arguments, low8 0] else [])
  | dynamic name desc method args, bs =>
    ∃ i n, p.Has i (.invokeDynamic name desc n) ∧ p.Calls n method args ∧
      bs = low8 186 :: (bytes16 i ++ bytes16 0)
  | constant v, bs =>
    ∃ i c, p.Has i c ∧ v.constant? = some c ∧ bs = loadBytes c i
  | increment slot amount, bs => bs = incrementBytes slot amount
  | multiArray desc dims, bs =>
    ∃ i, p.Has i (.classRef desc) ∧
      bs = low8 197 :: (bytes16 i ++ [low8 dims])
  | jump .., _ | tableSwitch .., _ | lookupSwitch .., _ => False

theorem Spelled.mono {q : Pool} (h : p.Extends q) {i : Instruction T} (hi : i.Spelled p bs) :
    i.Spelled q bs := by
  cases i with
  | type | field | multiArray =>
    obtain ⟨k, hk, rfl⟩ := hi
    exact ⟨k, hk.mono h, rfl⟩
  | invoke =>
    obtain ⟨k, size, hk, hi⟩ := hi
    exact ⟨k, size, hk.mono h, hi⟩
  | dynamic =>
    obtain ⟨k, n, hk, hn, hi⟩ := hi
    exact ⟨k, n, hk.mono h, hn.mono h, hi⟩
  | constant =>
    obtain ⟨k, c, hk, hi⟩ := hi
    exact ⟨k, c, hk.mono h, hi⟩
  | _ => exact hi

theorem Spelled.unique (hp : p.Wf) {i : Instruction T} {cs : List UInt8} (h : i.Spelled p bs)
    (h' : i.Spelled p cs) : bs = cs := by
  cases i with
  | type | field | multiArray =>
    obtain ⟨k, hk, rfl⟩ := h
    obtain ⟨k', hk', rfl⟩ := h'
    rw [hp.index_unique hk.1 hk'.1]
  | invoke =>
    obtain ⟨k, size, hk, hsize, rfl⟩ := h
    obtain ⟨k', size', hk', hsize', rfl⟩ := h'
    cases hsize.symm.trans hsize'
    rw [hp.index_unique hk.1 hk'.1]
  | dynamic =>
    obtain ⟨k, n, hk, hn, rfl⟩ := h
    obtain ⟨k', n', hk', hn', rfl⟩ := h'
    obtain rfl := hn.unique hp hn'
    rw [hp.index_unique hk.1 hk'.1]
  | constant =>
    obtain ⟨k, c, hk, hc, rfl⟩ := h
    obtain ⟨k', c', hk', hc', rfl⟩ := h'
    cases hc.symm.trans hc'
    rw [hp.index_unique hk.1 hk'.1]
  | jump | tableSwitch | lookupSwitch => exact h.elim
  | plain | push | var | increment => exact h.trans h'.symm

/-! ## Reading -/

theorem toNat_low8 (h : op < 256) : (Buffer.low8 op).toNat = op := by
  have := Buffer.toNat_low8 op
  omega

theorem decode?_cons {o : Nat} (h : shape? op = some s) :
    decode? p o (low8 op :: bs) = operands? p o op bs s := by
  have hop : (low8 op).toNat = op :=
    toNat_low8 (Nat.lt_of_le_of_lt (le_of_shape? h) (by decide))
  rw [decode?, hop, h, bind_some]

theorem constantInstruction?_bytes16 {rest : List UInt8} (hk : p.Has k c)
    (hx : reference? p op (bytes16 k ++ rest) s c = some x) :
    constantInstruction? p s op (bytes16 k ++ rest) = some x := by
  have hat : p.at? (unsigned (bytes16 k)) = some c := by
    rw [unsigned_bytes16_of hk.2]
    exact hk.1
  rw [constantInstruction?]
  exact bind_eq_some_iff.2
    ⟨_, slice?_start rfl, bind_eq_some_iff.2 ⟨c, hat, hx⟩⟩

theorem decode?_plain {op : Int} (h : HasShape op .bare) (p : Pool) (o : Nat) (rest : List UInt8) :
    decode? p o (low8 op :: rest) = some ⟨.plain op, 1, false⟩ := by
  obtain ⟨n, rfl, hn⟩ := h
  rw [decode?_cons hn]
  rfl

theorem decode?_byte (hop : shape? op = some .byte) {v : Int} (hl : -128 ≤ v) (hu : v ≤ 127)
    (p : Pool) (o : Nat) (rest : List UInt8) :
    decode? p o (low8 op :: low8 v :: rest) = some ⟨.push op v, 2, false⟩ := by
  rw [decode?_cons hop, operands?]
  refine bind_eq_some_iff.2 ⟨_, slice?_one _ _, ?_⟩
  rw [signed_low8 hl hu]

theorem decode?_short {v : Int} (hl : -32768 ≤ v) (hu : v ≤ 32767) (p : Pool) (o : Nat)
    (rest : List UInt8) :
    decode? p o (low8 17 :: (bytes16 v ++ rest)) = some ⟨.push 17 v, 3, false⟩ := by
  have hop : shape? 17 = some .short := by decide
  refine (decode?_cons hop).trans ?_
  rw [operands?]
  refine bind_eq_some_iff.2 ⟨_, slice?_start rfl, ?_⟩
  rw [signed_bytes16 hl hu]
  rfl

set_option synthInstance.maxSize 256 in
theorem fixedSlot_fixedOp : ∀ op < 221, ∀ slot < (4 : Nat), shape? op = some .slot → op ≠ 169 →
    fixedOp op slot = (fixedOp op slot).toNat ∧
      shape? (fixedOp op slot).toNat = some .fixedSlot ∧
      fixedSlot (fixedOp op slot).toNat = (op, slot) := by
  decide +kernel

theorem decode?_var {slot : Nat} (hop : shape? op = some .slot) (hslot : slot ≤ 65535) (p : Pool)
    (o : Nat) (rest : List UInt8) :
    decode? p o (varBytes op slot ++ rest) =
      some ⟨.var op slot, (varBytes op slot).length, false⟩ := by
  unfold varBytes
  split
  next h =>
    obtain ⟨hn, hshape, hfixed⟩ := fixedSlot_fixedOp op (Nat.lt_succ_of_le (le_of_shape? hop)) slot
      (by omega) hop (by omega)
    rw [hn, List.cons_append, decode?_cons hshape, operands?, hfixed]
    rfl
  next h =>
    split
    next hwide =>
      have hshape : shape? 196 = some .wide := by decide
      have hbyte : unsigned [low8 op] = op :=
        unsigned_low8_of (Nat.lt_of_le_of_lt (le_of_shape? hop) (by decide))
      have hiinc : op ≠ 132 := by
        rintro rfl
        exact absurd hop (by decide)
      have hslice : slice? 1 2 ([low8 op] ++ (bytes16 slot ++ rest)) =
          some (bytes16 slot) :=
        slice?_append rfl rfl
      refine (decode?_cons hshape).trans ?_
      rw [operands?, wide?]
      refine bind_eq_some_iff.2 ⟨_, slice?_one _ _, bind_eq_some_iff.2 ⟨_, hslice, ?_⟩⟩
      dsimp only
      rw [hbyte, if_neg hiinc, if_pos hop, unsigned_bytes16_of (by omega)]
      rfl
    next hnarrow =>
      rw [List.cons_append, decode?_cons hop, operands?]
      refine bind_eq_some_iff.2 ⟨_, slice?_one _ _, ?_⟩
      rw [unsigned_low8_of (by omega)]
      rfl

theorem decode?_increment {slot : Nat} {amount : Int} (hslot : slot ≤ 65535)
    (hl : -32768 ≤ amount) (hu : amount ≤ 32767) (p : Pool) (o : Nat) (rest : List UInt8) :
    decode? p o (incrementBytes slot amount ++ rest) =
      some ⟨.increment slot amount, (incrementBytes slot amount).length, false⟩ := by
  unfold incrementBytes
  split
  next hwide =>
    have hshape : shape? 196 = some .wide := by decide
    have hbyte : unsigned [low8 132] = 132 := by decide
    have hslice : slice? 1 2 ([low8 132] ++
        (bytes16 slot ++ (bytes16 amount ++ rest))) = some (bytes16 slot) :=
      slice?_append rfl rfl
    have hslice' : slice? 3 2 ((low8 132 :: bytes16 slot) ++
        (bytes16 amount ++ rest)) = some (bytes16 amount) :=
      slice?_append rfl rfl
    refine (decode?_cons hshape).trans ?_
    rw [operands?, wide?]
    refine bind_eq_some_iff.2 ⟨_, slice?_one _ _, bind_eq_some_iff.2 ⟨_, hslice, ?_⟩⟩
    dsimp only
    rw [hbyte, if_pos rfl]
    refine bind_eq_some_iff.2 ⟨_, hslice', ?_⟩
    rw [unsigned_bytes16_of (by omega), signed_bytes16 hl hu]
    rfl
  next hnarrow =>
    have hshape : shape? 132 = some .increment := by decide
    have hslice : slice? 1 1 ([low8 slot] ++ ([low8 amount] ++ rest)) =
        some [low8 amount] :=
      slice?_append rfl rfl
    refine (decode?_cons hshape).trans ?_
    rw [operands?]
    refine bind_eq_some_iff.2 ⟨_, slice?_one _ _, bind_eq_some_iff.2 ⟨_, hslice, ?_⟩⟩
    rw [unsigned_low8_of (by omega), signed_low8 (by omega) (by omega)]
    rfl

theorem decode?_load {v : Value} {i : Nat} (hi : p.Has i c) (hv : valueOf? c = some v) (o : Nat)
    (rest : List UInt8) :
    decode? p o (loadBytes c i ++ rest) =
      some ⟨.constant v, (loadBytes c i).length, false⟩ := by
  have hload : load? p i c.isWide = some (.constant v) := by
    rw [load?]
    refine bind_eq_some_iff.2 ⟨c, hi.1, ?_⟩
    rw [if_pos rfl]
    exact bind_eq_some_iff.2 ⟨v, hv, rfl⟩
  unfold loadBytes
  split
  next hwide =>
    have hshape : shape? 20 = some .constant16 := by decide
    rw [hwide] at hload
    refine (decode?_cons hshape).trans ?_
    rw [operands?]
    refine bind_eq_some_iff.2 ⟨_, slice?_start rfl, bind_eq_some_iff.2 ⟨_, ?_, rfl⟩⟩
    rw [unsigned_bytes16_of hi.2]
    exact hload
  next hsingle =>
    rw [Bool.of_not_eq_true hsingle] at hload
    split
    next hlong =>
      have hshape : shape? 19 = some .constant16 := by decide
      refine (decode?_cons hshape).trans ?_
      rw [operands?]
      refine bind_eq_some_iff.2 ⟨_, slice?_start rfl, bind_eq_some_iff.2 ⟨_, ?_, rfl⟩⟩
      rw [unsigned_bytes16_of hi.2]
      exact hload
    next hshort =>
      have hshape : shape? 18 = some .constant8 := by decide
      refine (decode?_cons hshape).trans ?_
      rw [operands?]
      refine bind_eq_some_iff.2 ⟨_, slice?_one _ _, bind_eq_some_iff.2 ⟨_, ?_, rfl⟩⟩
      rw [unsigned_low8_of (by omega)]
      exact hload

theorem decode?_member (hk : p.Has k c) (hop : shape? op = some s)
    (hs : s = .field ∨ s = .method ∨ s = .type) (o : Nat) (rest : List UInt8)
    (hx : reference? p op (bytes16 k ++ rest) s c = some x) :
    decode? p o (low8 op :: (bytes16 k ++ rest)) = some ⟨x, 3, false⟩ := by
  have hc := constantInstruction?_bytes16 hk hx
  rw [decode?_cons hop]
  rcases hs with rfl | rfl | rfl
  · rw [operands?]
    exact bind_eq_some_iff.2 ⟨x, hc, rfl⟩
  · rw [operands?]
    exact bind_eq_some_iff.2 ⟨x, hc, rfl⟩
  · rw [operands?]
    exact bind_eq_some_iff.2 ⟨x, hc, rfl⟩

theorem reference?_method (p : Pool) (op : Nat) (bs : List UInt8) (owner name desc : Text)
    (ofInterface : Bool) (hs : s = .method ∨ s = .interfaceMethod) :
    reference? p op bs s (PoolM.methodConstant owner name desc ofInterface) =
      some (.invoke op owner name desc ofInterface) := by
  cases ofInterface <;> rcases hs with rfl | rfl <;> rfl

theorem decode?_invokeInterface (hk : p.Has k c) {count : List UInt8} (hcount : count.length = 2)
    (o : Nat) (rest : List UInt8)
    (hx : reference? p 185 (bytes16 k ++ (count ++ rest)) .interfaceMethod c = some x) :
    decode? p o (low8 185 :: (bytes16 k ++ (count ++ rest))) =
      some ⟨x, 5, false⟩ := by
  have hshape : shape? 185 = some .interfaceMethod := by decide
  have hslice : slice? 2 2 (bytes16 k ++ (count ++ rest)) = some count :=
    slice?_append rfl hcount
  refine (decode?_cons hshape).trans ?_
  rw [operands?]
  exact bind_eq_some_iff.2
    ⟨x, constantInstruction?_bytes16 hk hx, bind_eq_some_iff.2 ⟨_, hslice, rfl⟩⟩

theorem decode?_dynamic {n : Nat} {name desc : Text} {method : Handle} {args : List Value}
    (hk : p.Has k (.invokeDynamic name desc n)) (hn : bootstrap? p n = some (method, args))
    (o : Nat) (rest : List UInt8) :
    decode? p o (low8 186 :: (bytes16 k ++ (bytes16 0 ++ rest))) =
      some ⟨.dynamic name desc method args, 5, false⟩ := by
  have hshape : shape? 186 = some .dynamic := by decide
  have hslice : slice? 2 2 (bytes16 k ++ (bytes16 0 ++ rest)) =
      some (bytes16 0) :=
    slice?_append rfl rfl
  have hx : reference? p 186 (bytes16 k ++ (bytes16 0 ++ rest)) .dynamic
      (.invokeDynamic name desc n) = some (.dynamic name desc method args) := by
    rw [reference?, hn]
    rfl
  refine (decode?_cons hshape).trans ?_
  rw [operands?]
  exact bind_eq_some_iff.2
    ⟨_, constantInstruction?_bytes16 hk hx, bind_eq_some_iff.2 ⟨_, hslice, rfl⟩⟩

theorem decode?_multiArray {dims : Nat} {desc : Text} (hk : p.Has k (.classRef desc))
    (hdims : dims ≤ 255) (o : Nat) (rest : List UInt8) :
    decode? p o (low8 197 :: (bytes16 k ++ ([low8 dims] ++ rest))) =
      some ⟨.multiArray desc dims, 4, false⟩ := by
  have hshape : shape? 197 = some .multiArray := by decide
  have hslice : slice? 2 1 (bytes16 k ++ ([low8 dims] ++ rest)) =
      some [low8 dims] :=
    slice?_append rfl rfl
  have hx : reference? p 197 (bytes16 k ++ ([low8 dims] ++ rest)) .multiArray
      (.classRef desc) = some (.multiArray desc dims) := by
    rw [reference?, hslice, map_some, unsigned_low8_of (by omega)]
  refine (decode?_cons hshape).trans ?_
  rw [operands?]
  exact bind_eq_some_iff.2 ⟨_, constantInstruction?_bytes16 hk hx, rfl⟩

/-- An instruction that is spelled by bytes is read from them, whatever follows. -/
theorem Spelled.decode? {i : Instruction T} (h : i.Spelled p bs) (hi : i.Regular) (f : T → Int)
    (o : Nat) (rest : List UInt8) :
    decode? p o (bs ++ rest) = some ⟨i.mapTargets f, bs.length, false⟩ := by
  cases i with
  | plain op =>
    obtain rfl := h
    exact decode?_plain hi p o rest
  | push op v =>
    obtain rfl := h
    rcases hi with ⟨hop, hl, hu⟩ | ⟨rfl, hl, hu⟩
    · have h17 : op ≠ 17 := by omega
      rw [if_neg h17]
      rcases hop with rfl | rfl
      · exact decode?_byte (by decide) hl hu p o rest
      · exact decode?_byte (by decide) hl hu p o rest
    · exact decode?_short hl hu p o rest
  | var op slot =>
    obtain rfl := h
    obtain ⟨⟨n, rfl, hn⟩, hl, hu⟩ := hi
    obtain ⟨k, rfl⟩ := Int.eq_ofNat_of_zero_le hl
    exact decode?_var hn (by omega) p o rest
  | type op name =>
    obtain ⟨k, hk, rfl⟩ := h
    obtain ⟨n, rfl, hn⟩ := hi
    exact decode?_member hk hn (.inr (.inr rfl)) o rest rfl
  | field op owner name desc =>
    obtain ⟨k, hk, rfl⟩ := h
    obtain ⟨n, rfl, hn⟩ := hi
    exact decode?_member hk hn (.inl rfl) o rest rfl
  | invoke op owner name desc ofInterface =>
    obtain ⟨k, size, hk, -, rfl⟩ := h
    rcases hi with ⟨n, rfl, hn⟩ | rfl
    · have h185 : (n : Int) ≠ 185 := by
        rintro h
        obtain rfl : n = 185 := by omega
        exact absurd hn (by decide)
      rw [if_neg h185, List.append_nil]
      exact decode?_member hk hn (.inr (.inl rfl)) o rest
        (reference?_method p n _ owner name desc ofInterface (.inl rfl))
    · rw [if_pos rfl]
      have hcount : [low8 size.arguments, low8 0].length = 2 := rfl
      exact decode?_invokeInterface hk hcount o rest
        (reference?_method p 185 _ owner name desc ofInterface (.inr rfl))
  | dynamic name desc method args =>
    obtain ⟨k, n, hk, hn, rfl⟩ := h
    exact decode?_dynamic hk (hn.bootstrap? hi.2) o rest
  | jump op t => exact h.elim
  | constant v =>
    obtain ⟨k, c, hk, hc, rfl⟩ := h
    exact decode?_load hk (hi c hc) o rest
  | increment slot amount =>
    obtain rfl := h
    obtain ⟨hl, hu, hal, hau⟩ := hi
    obtain ⟨k, rfl⟩ := Int.eq_ofNat_of_zero_le hl
    exact decode?_increment (by omega) hal hau p o rest
  | tableSwitch low high d ts => exact h.elim
  | lookupSwitch d keys ts => exact h.elim
  | multiArray desc dims =>
    obtain ⟨k, hk, rfl⟩ := h
    obtain ⟨n, rfl⟩ := Int.eq_ofNat_of_zero_le hi.1
    exact decode?_multiArray hk (by have := hi.2; omega) o rest

end Instruction

end ClassAssembler
