import ClassAssembler.Proofs.PoolCallSites

/-!
# How the machine reads code

The instruction that stands at an offset of a method's code, told from the bytes alone by the
numbers of the operations and the layout of their operands.  Indices are looked up in the constant
pool, and targets are offsets.  Behind the operations of the machine, the numbers from 202 to 220
stand for jumps that are pending; they are read as the jumps they stand for, and marked.
-/

namespace ClassAssembler

open Buffer Option

namespace Machine

variable {v : Int}

/-! ## Numbers -/

def unsigned (bs : List UInt8) : Nat := bs.foldl (fun n b => 256 * n + b.toNat) 0

def signed (bs : List UInt8) : Int := Int.bmod (unsigned bs) (Nat.pow 256 bs.length)

def slice? (k n : Nat) (bs : List UInt8) : Option (List UInt8) :=
  if k + n ≤ bs.length then some ((bs.drop k).take n) else none

def words? (bs : List UInt8) : Nat → Nat → Option (List Int)
  | _, 0 => some []
  | k, n + 1 => do
    let x ← slice? k 4 bs
    let xs ← words? bs (k + 4) n
    return signed x :: xs

def pairs? (bs : List UInt8) : Nat → Nat → Option (List (Int × Int))
  | _, 0 => some []
  | k, n + 1 => do
    let x ← slice? k 4 bs
    let y ← slice? (k + 4) 4 bs
    let xs ← pairs? bs (k + 8) n
    return (signed x, signed y) :: xs

/-! ## Operations -/

inductive Shape where
  | bare
  | byte
  | short
  | constant8
  | constant16
  | slot
  | fixedSlot
  | increment
  | branch
  | wideBranch
  | tableSwitch
  | lookupSwitch
  | field
  | method
  | interfaceMethod
  | dynamic
  | type
  | wide
  | multiArray
  | pendingBranch
  | pendingWideBranch
deriving DecidableEq

/-- The layouts of the operands in the order of the operations, each with the last operation that
has it. -/
def shapes : List (Nat × Shape) :=
  [(15, .bare), (16, .byte), (17, .short), (18, .constant8), (20, .constant16), (25, .slot),
    (45, .fixedSlot), (53, .bare), (58, .slot), (78, .fixedSlot), (131, .bare), (132, .increment),
    (152, .bare), (168, .branch), (169, .slot), (170, .tableSwitch), (171, .lookupSwitch),
    (177, .bare), (181, .field), (184, .method), (185, .interfaceMethod), (186, .dynamic),
    (187, .type), (188, .byte), (189, .type), (191, .bare), (193, .type), (195, .bare),
    (196, .wide), (197, .multiArray), (199, .branch), (201, .wideBranch), (219, .pendingBranch),
    (220, .pendingWideBranch)]

def shape? (op : Nat) : Option Shape := (shapes.find? fun r => op ≤ r.1).map Prod.snd

theorem le_of_shape? {op : Nat} {s : Shape} (h : shape? op = some s) : op ≤ 220 := by
  obtain ⟨r, hr, -⟩ := map_eq_some_iff.1 h
  have hbound : ∀ r ∈ shapes, r.1 ≤ 220 := by decide
  have hle : op ≤ r.1 := by simpa using List.find?_some hr
  exact Nat.le_trans hle (hbound r (List.mem_of_find?_eq_some hr))

def pendingFor (op : Nat) : Nat := if op ≤ 217 then op - 49 else op - 20

/-- The access to a local variable that an operation with the variable in its number stands for. -/
def fixedSlot (op : Nat) : Nat × Nat :=
  if op ≤ 45 then (21 + (op - 26) / 4, (op - 26) % 4) else (54 + (op - 59) / 4, (op - 59) % 4)

/-! ## Constants -/

def valueOf? : Constant → Option Value
  | .integer v => some (.int32 v)
  | .float bits => some (.float32 bits)
  | .long v => some (.int64 v)
  | .double bits => some (.float64 bits)
  | .string t => some (.string t)
  | .classRef name => some (.type (.ofName name))
  | .methodType desc => some (.type (.ofMethod desc))
  | .methodHandle kind owner name desc ofInterface =>
    some (.handle { kind, owner, name, desc, ofInterface })
  | _ => none

def handleOf? : Constant → Option Handle
  | .methodHandle kind owner name desc ofInterface =>
    some { kind, owner, name, desc, ofInterface }
  | _ => none

def values? (p : Pool) : List Nat → Option (List Value)
  | [] => some []
  | i :: is => do
    let c ← p.at? i
    let v ← valueOf? c
    let vs ← values? p is
    return v :: vs

def bootstrap? (p : Pool) (n : Nat) : Option (Handle × List Value) := do
  let (i, is) ← (Pool.bootstrapWords n (Pool.wordsOf p.bootstrapBytes.toList)).toOption
  let c ← p.at? i
  let h ← handleOf? c
  let vs ← values? p is
  return (h, vs)

/-! ## Instructions -/

/-- An instruction at an offset: its length, and whether it is a pending jump. -/
structure Decoded where
  instruction : Instruction Int
  length : Nat
  isPending : Bool := false
deriving DecidableEq

/-- The instruction that an operation with a reference to a constant is. -/
def reference? (p : Pool) (op : Nat) (bs : List UInt8) : Shape → Constant → Option (Instruction Int)
  | .field, .fieldRef owner name desc => some (.field op owner name desc)
  | .method, .methodRef owner name desc => some (.invoke op owner name desc false)
  | .method, .interfaceMethodRef owner name desc => some (.invoke op owner name desc true)
  | .interfaceMethod, .methodRef owner name desc => some (.invoke op owner name desc false)
  | .interfaceMethod, .interfaceMethodRef owner name desc => some (.invoke op owner name desc true)
  | .type, .classRef name => some (.type op name)
  | .dynamic, .invokeDynamic name desc n =>
    (bootstrap? p n).map fun (h, args) => .dynamic name desc h args
  | .multiArray, .classRef name =>
    (slice? 2 1 bs).map fun dims => .multiArray name (unsigned dims)
  | _, _ => none

def constantInstruction? (p : Pool) (s : Shape) (op : Nat) (bs : List UInt8) :
    Option (Instruction Int) := do
  let i ← slice? 0 2 bs
  let c ← p.at? (unsigned i)
  reference? p op bs s c

/-- The load of the constant at an index; `isWide` tells whether it has to take two slots. -/
def load? (p : Pool) (i : Nat) (isWide : Bool) : Option (Instruction Int) := do
  let c ← p.at? i
  if c.isWide = isWide then
    let v ← valueOf? c
    return .constant v
  else none

def wide? (bs : List UInt8) : Option Decoded := do
  let x ← slice? 0 1 bs
  let slot ← slice? 1 2 bs
  let op := unsigned x
  if op = 132 then
    let amount ← slice? 3 2 bs
    return ⟨.increment (unsigned slot) (signed amount), 6, false⟩
  else if shape? op = some .slot then return ⟨.var op (unsigned slot), 4, false⟩
  else none

/-- The bytes that fill up the operation of a switch to a multiple of four. -/
def padding (o : Nat) : Nat := 3 - o % 4

def tableSwitch? (o : Nat) (bs : List UInt8) : Option Decoded := do
  let k := padding o
  let fallback ← slice? k 4 bs
  let low ← slice? (k + 4) 4 bs
  let high ← slice? (k + 8) 4 bs
  if signed low ≤ signed high then
    let n := (signed high - signed low + 1).toNat
    let rows ← words? bs (k + 12) n
    return ⟨.tableSwitch (signed low) (signed high) (o + signed fallback) (rows.map (o + ·)),
      1 + k + 12 + 4 * n, false⟩
  else none

def lookupSwitch? (o : Nat) (bs : List UInt8) : Option Decoded := do
  let k := padding o
  let fallback ← slice? k 4 bs
  let count ← slice? (k + 4) 4 bs
  if 0 ≤ signed count then
    let n := (signed count).toNat
    let rows ← pairs? bs (k + 8) n
    return ⟨.lookupSwitch (o + signed fallback) (rows.map Prod.fst) (rows.map fun r => o + r.2),
      1 + k + 8 + 8 * n, false⟩
  else none

/-- The instruction with an operation at an offset, given the bytes behind the operation. -/
def operands? (p : Pool) (o op : Nat) (bs : List UInt8) : Shape → Option Decoded
  | .bare => some ⟨.plain op, 1, false⟩
  | .byte => do
    let x ← slice? 0 1 bs
    some ⟨.push op (signed x), 2, false⟩
  | .short => do
    let x ← slice? 0 2 bs
    some ⟨.push op (signed x), 3, false⟩
  | .constant8 => do
    let i ← slice? 0 1 bs
    let x ← load? p (unsigned i) false
    some ⟨x, 2, false⟩
  | .constant16 => do
    let i ← slice? 0 2 bs
    let x ← load? p (unsigned i) (op = 20)
    some ⟨x, 3, false⟩
  | .slot => do
    let x ← slice? 0 1 bs
    some ⟨.var op (unsigned x), 2, false⟩
  | .fixedSlot => some ⟨.var (fixedSlot op).1 (fixedSlot op).2, 1, false⟩
  | .increment => do
    let slot ← slice? 0 1 bs
    let amount ← slice? 1 1 bs
    some ⟨.increment (unsigned slot) (signed amount), 3, false⟩
  | .branch => do
    let x ← slice? 0 2 bs
    some ⟨.jump op (o + signed x), 3, false⟩
  | .wideBranch => do
    let x ← slice? 0 4 bs
    some ⟨.jump op (o + signed x), 5, false⟩
  | .pendingBranch => do
    let x ← slice? 0 2 bs
    some ⟨.jump (pendingFor op) (o + unsigned x), 3, true⟩
  | .pendingWideBranch => do
    let x ← slice? 0 4 bs
    some ⟨.jump 200 (o + signed x), 5, true⟩
  | .tableSwitch => tableSwitch? o bs
  | .lookupSwitch => lookupSwitch? o bs
  | .wide => wide? bs
  | .field => do
    let x ← constantInstruction? p .field op bs
    some ⟨x, 3, false⟩
  | .method => do
    let x ← constantInstruction? p .method op bs
    some ⟨x, 3, false⟩
  | .interfaceMethod => do
    let x ← constantInstruction? p .interfaceMethod op bs
    let _ ← slice? 2 2 bs
    some ⟨x, 5, false⟩
  | .dynamic => do
    let x ← constantInstruction? p .dynamic op bs
    let _ ← slice? 2 2 bs
    some ⟨x, 5, false⟩
  | .type => do
    let x ← constantInstruction? p .type op bs
    some ⟨x, 3, false⟩
  | .multiArray => do
    let x ← constantInstruction? p .multiArray op bs
    some ⟨x, 4, false⟩

def decode? (p : Pool) (o : Nat) : List UInt8 → Option Decoded
  | [] => none
  | b :: bs => (shape? b.toNat).bind (operands? p o b.toNat bs)

def decodeAt? (p : Pool) (code : List UInt8) (o : Nat) : Option Decoded :=
  decode? p o (code.drop o)

/-- All instructions from an offset to the end of the code, each with its offset. -/
inductive Disassembles (p : Pool) (code : List UInt8) : Nat → List (Nat × Decoded) → Prop
  | done : Disassembles p code code.length []
  | step {o : Nat} {d : Decoded} {ds : List (Nat × Decoded)} (here : decodeAt? p code o = some d)
      (rest : Disassembles p code (o + d.length) ds) : Disassembles p code o ((o, d) :: ds)

/-! ## Reading back numbers -/

theorem unsigned_low8 (v : Int) : (unsigned [low8 v] : Int) = v % 256 := by
  have h := toNat_low8 v
  simpa [unsigned] using h

theorem unsigned_bytes16 (v : Int) : (unsigned (bytes16 v) : Int) = v % 65536 := by
  have hh := toNat_low8 (v / 256)
  have hl := toNat_low8 v
  simp only [unsigned, bytes16, List.foldl_cons, List.foldl_nil]
  omega

theorem unsigned_bytes32 (v : Int) :
    (unsigned (bytes32 v) : Int) = v % 0x100000000 := by
  have h₃ := toNat_low8 (v / 0x1000000)
  have h₂ := toNat_low8 (v / 0x10000)
  have h₁ := toNat_low8 (v / 0x100)
  have h₀ := toNat_low8 v
  simp only [unsigned, bytes32, List.foldl_cons, List.foldl_nil]
  omega

theorem unsigned_low8_of {v : Nat} (h : v < 256) : unsigned [low8 v] = v := by
  have := unsigned_low8 v
  omega

theorem unsigned_bytes16_of {v : Nat} (h : v < 65536) : unsigned (bytes16 v) = v := by
  have := unsigned_bytes16 v
  omega

theorem signed_low8 (hl : -128 ≤ v) (hu : v ≤ 127) : signed [low8 v] = v := by
  have h : signed [low8 v] = Int.bmod v 256 := by
    have hwidth : Nat.pow 256 [low8 v].length = 256 := by simp
    rw [signed, unsigned_low8, hwidth]
    exact Int.emod_bmod v 256
  rw [h, Int.bmod_eq_of_le (by omega) (by omega)]

theorem signed_of_unsigned {bs : List UInt8} {n : Nat} (hn : Nat.pow 256 bs.length = n)
    (h : (unsigned bs : Int) = v % n) (hl : -(n : Int) ≤ 2 * v) (hu : 2 * v < n) :
    signed bs = v := by
  rw [signed, h, hn, Int.emod_bmod, Int.bmod_eq_of_le (by omega) (by omega)]

theorem signed_bytes16 (hl : -32768 ≤ v) (hu : v ≤ 32767) : signed (bytes16 v) = v :=
  signed_of_unsigned (n := 65536) (by simp [bytes16]) (by simpa using unsigned_bytes16 v) (by omega)
    (by omega)

theorem signed_bytes32 (hl : -0x80000000 ≤ v) (hu : v ≤ 0x7fffffff) : signed (bytes32 v) = v :=
  signed_of_unsigned (n := 0x100000000) (by simp [bytes32]) (by simpa using unsigned_bytes32 v)
    (by omega) (by omega)

theorem slice?_append {pre bs post : List UInt8} {k n : Nat} (hk : pre.length = k)
    (hn : bs.length = n) : slice? k n (pre ++ (bs ++ post)) = some bs := by
  subst hk hn
  simp [slice?]

theorem slice?_start {bs post : List UInt8} {n : Nat} (hn : bs.length = n) :
    slice? 0 n (bs ++ post) = some bs :=
  (slice?_append rfl hn : slice? 0 n ([] ++ (bs ++ post)) = some bs)

theorem slice?_one (b : UInt8) (post : List UInt8) : slice? 0 1 (b :: post) = some [b] :=
  (slice?_start rfl : slice? 0 1 ([b] ++ post) = some [b])

/-! ## Growing pools -/

section Mono

variable {p q : Pool}

variable {d : Decoded} {x : Instruction Int} {bs : List UInt8} {o op : Nat} {s : Shape}

theorem values?_mono (h : p.Extends q) {is : List Nat} {vs : List Value}
    (hv : values? p is = some vs) : values? q is = some vs := by
  induction is generalizing vs with
  | nil => exact hv
  | cons i is ih =>
    simp only [values?, bind_eq_bind, bind_eq_some_iff] at hv ⊢
    obtain ⟨c, hc, v, hcv, ws, hws, hvs⟩ := hv
    exact ⟨c, h.at? hc, v, hcv, ws, ih hws, hvs⟩

theorem bootstrap?_mono (h : p.Extends q) {n : Nat} {r : Handle × List Value}
    (hr : bootstrap? p n = some r) : bootstrap? q n = some r := by
  simp only [bootstrap?, bind_eq_bind, bind_eq_some_iff] at hr ⊢
  obtain ⟨⟨i, is⟩, hlink, c, hc, x, hx, vs, hvs, hr⟩ := hr
  refine ⟨⟨i, is⟩, ?_, c, h.at? hc, x, hx, vs, values?_mono h hvs, hr⟩
  have hp : p.Links n i is := by
    unfold Pool.Links
    cases hw : Pool.bootstrapWords n (Pool.wordsOf p.bootstrapBytes.toList) with
    | error e => rw [hw] at hlink; cases hlink
    | ok w => rw [hw] at hlink; cases hlink; rfl
  have hq : q.Links n i is := h.links hp
  rw [hq]
  rfl

theorem load?_mono (h : p.Extends q) {i : Nat} {isWide : Bool} (hx : load? p i isWide = some x) :
    load? q i isWide = some x := by
  simp only [load?, bind_eq_bind, bind_eq_some_iff] at hx ⊢
  obtain ⟨c, hc, hx⟩ := hx
  exact ⟨c, h.at? hc, hx⟩

theorem reference?_mono (h : p.Extends q) {c : Constant} (hx : reference? p op bs s c = some x) :
    reference? q op bs s c = some x := by
  unfold reference? at hx ⊢
  split at hx
  case h_7 =>
    obtain ⟨r, hr, hx⟩ := map_eq_some_iff.1 hx
    exact map_eq_some_iff.2 ⟨r, bootstrap?_mono h hr, hx⟩
  all_goals exact hx

theorem constantInstruction?_mono (h : p.Extends q) (hx : constantInstruction? p s op bs = some x) :
    constantInstruction? q s op bs = some x := by
  simp only [constantInstruction?, bind_eq_bind, bind_eq_some_iff] at hx ⊢
  obtain ⟨i, hi, c, hc, hx⟩ := hx
  exact ⟨i, hi, c, h.at? hc, reference?_mono h hx⟩

theorem operands?_mono (h : p.Extends q) (hd : operands? p o op bs s = some d) :
    operands? q o op bs s = some d := by
  cases s
  case constant8 | constant16 =>
    obtain ⟨i, hi, hd⟩ := bind_eq_some_iff.1 hd
    obtain ⟨x, hx, hd⟩ := bind_eq_some_iff.1 hd
    exact bind_eq_some_iff.2 ⟨i, hi, bind_eq_some_iff.2 ⟨x, load?_mono h hx, hd⟩⟩
  case field | method | interfaceMethod | dynamic | type | multiArray =>
    obtain ⟨x, hx, hd⟩ := bind_eq_some_iff.1 hd
    exact bind_eq_some_iff.2 ⟨x, constantInstruction?_mono h hx, hd⟩
  all_goals exact hd

theorem decode?_mono (h : p.Extends q) (hd : decode? p o bs = some d) :
    decode? q o bs = some d := by
  cases bs with
  | nil => exact hd
  | cons b bs =>
    obtain ⟨s, hs, hd⟩ := bind_eq_some_iff.1 hd
    exact bind_eq_some_iff.2 ⟨s, hs, operands?_mono h hd⟩

theorem decodeAt?_mono (h : p.Extends q) {code : List UInt8} (hd : decodeAt? p code o = some d) :
    decodeAt? q code o = some d :=
  decode?_mono h hd

theorem Disassembles.mono (h : p.Extends q) {code : List UInt8} {ds : List (Nat × Decoded)}
    (hd : Disassembles p code o ds) : Disassembles q code o ds := by
  induction hd with
  | done => exact .done
  | step here _ ih => exact .step (decodeAt?_mono h here) ih

end Mono

end Machine

end ClassAssembler
