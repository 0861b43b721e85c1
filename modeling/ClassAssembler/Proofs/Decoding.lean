import ClassAssembler.Proofs.Items

/-!
# Reading code back

A method that is written again is read first.  What is read at an offset is what the machine reads
there, with the instructions that have to stand in the place of a pending jump
(`Code.decodeAt_eq`, `Code.decode_eq`).
-/

namespace ClassAssembler

open Machine Option List Opcode

/-! ## Numbers -/

namespace Code

variable {code : Code} {s k n : Nat} {x : List UInt8}

variable {j : Int}

theorem getElem?_of_slice? (h : slice? k n (code.toList.drop s) = some x) :
    x.length = n ∧ ∀ i < n, code[s + k + i]? = x[i]? := by
  rw [slice?] at h
  split at h
  next hle =>
    obtain rfl := some.inj h
    refine ⟨by rw [length_take, length_drop]; omega, fun i hi => ?_⟩
    rw [getElem?_take_of_lt hi, getElem?_drop, getElem?_drop, Array.getElem?_toList,
      Nat.add_assoc]
  next => cases h

theorem unsigned8_of_getElem? {b : UInt8} {i : Nat} (h : code[i]? = some b) (hj : j = i) :
    code.unsigned8 j = .ok b.toNat := by
  subst hj
  simp [unsigned8, Checked.fetch, h, bind, Except.bind, pure, Except.pure]

theorem unsigned8_of_slice? (h : slice? k 1 (code.toList.drop s) = some x)
    (hj : j = (s + k : Nat)) : code.unsigned8 j = .ok (unsigned x) := by
  obtain ⟨hlen, hget⟩ := getElem?_of_slice? h
  obtain ⟨a, rfl⟩ := length_eq_one_iff.1 hlen
  rw [unsigned8_of_getElem? (hget 0 (by decide)) hj]
  simp [unsigned]

theorem signed8_of_slice? (h : slice? k 1 (code.toList.drop s) = some x) (hj : j = (s + k : Nat)) :
    code.signed8 j = .ok (signed x) := by
  obtain ⟨hlen, -⟩ := getElem?_of_slice? h
  rw [signed8, unsigned8_of_slice? h hj, signed, hlen]
  rfl

theorem unsigned16_of_slice? (h : slice? k 2 (code.toList.drop s) = some x)
    (hj : j = (s + k : Nat)) : code.unsigned16 j = .ok (unsigned x) := by
  obtain ⟨hlen, hget⟩ := getElem?_of_slice? h
  obtain ⟨a, b, rfl⟩ := length_eq_two.1 hlen
  rw [unsigned16, unsigned8_of_getElem? (hget 0 (by decide)) hj,
    unsigned8_of_getElem? (hget 1 (by decide)) (by omega)]
  simp [unsigned, bind, Except.bind, pure, Except.pure, Nat.mul_comm]

theorem signed16_of_slice? (h : slice? k 2 (code.toList.drop s) = some x) (hj : j = (s + k : Nat)) :
    code.signed16 j = .ok (signed x) := by
  obtain ⟨hlen, -⟩ := getElem?_of_slice? h
  rw [signed16, unsigned16_of_slice? h hj, signed, hlen]
  rfl

theorem signed32_of_slice? (h : slice? k 4 (code.toList.drop s) = some x) (hj : j = (s + k : Nat)) :
    code.signed32 j = .ok (signed x) := by
  obtain ⟨hlen, hget⟩ := getElem?_of_slice? h
  obtain ⟨a, b, d, e, rfl⟩ : ∃ a b d e, x = [a, b, d, e] := by
    match x, hlen with
    | [a, b, d, e], _ => exact ⟨a, b, d, e, rfl⟩
  rw [signed32, unsigned16, unsigned16, unsigned8_of_getElem? (hget 0 (by decide)) hj,
    unsigned8_of_getElem? (hget 1 (by decide)) (by omega),
    unsigned8_of_getElem? (hget 2 (by decide)) (by omega),
    unsigned8_of_getElem? (hget 3 (by decide)) (by omega)]
  have hsum : ((a.toNat * 256 + b.toNat : Nat) : Int) * 65536 + (d.toNat * 256 + e.toNat : Nat) =
      (unsigned [a, b, d, e] : Nat) := by
    simp only [unsigned, foldl]
    omega
  have hpow : Nat.pow 256 [a, b, d, e].length = 0x100000000 := by
    show Nat.pow 256 4 = 0x100000000
    decide
  simp only [bind, Except.bind, pure, Except.pure, hsum, signed, hpow]

theorem signed32s_of_words? {xs : List Int} (h : words? (code.toList.drop s) k n = some xs)
    (hj : j = (s + k : Nat)) : code.signed32s 4 n j = .ok xs := by
  induction n generalizing k xs j with
  | zero =>
    obtain rfl := some.inj h
    rfl
  | succ n ih =>
    obtain ⟨x, hx, h⟩ := bind_eq_some_iff.1 h
    obtain ⟨ys, hys, h⟩ := bind_eq_some_iff.1 h
    obtain rfl := some.inj h
    rw [signed32s, signed32_of_slice? hx hj, ih hys (j := j + 4) (by omega)]
    rfl

theorem signed32s_of_pairs? {xs : List (Int × Int)} (h : pairs? (code.toList.drop s) k n = some xs)
    (hj : j = (s + k : Nat)) :
    code.signed32s 8 n j = .ok (xs.map Prod.fst) ∧ code.signed32s 8 n (j + 4) =
    .ok (xs.map Prod.snd) := by
  induction n generalizing k xs j with
  | zero =>
    obtain rfl := some.inj h
    exact ⟨rfl, rfl⟩
  | succ n ih =>
    obtain ⟨x, hx, h⟩ := bind_eq_some_iff.1 h
    obtain ⟨y, hy, h⟩ := bind_eq_some_iff.1 h
    obtain ⟨ys, hys, h⟩ := bind_eq_some_iff.1 h
    obtain rfl := some.inj h
    obtain ⟨hfst, hsnd⟩ := ih hys (j := j + 8) (by omega)
    have hnext : j + 4 + 8 = j + 8 + 4 := by omega
    constructor
    · rw [signed32s, signed32_of_slice? hx hj, hfst]
      rfl
    · rw [signed32s, signed32_of_slice? hy (by omega), hnext, hsnd]
      rfl

end Code

/-! ## Constants -/

namespace Pool

variable {p : Pool}

theorem valueOf_of_valueOf? {c : Constant} {v : Value} (h : valueOf? c = some v) :
    valueOf c = v := by
  cases c <;> first | exact some.inj h | cases h

theorem fetchValues_of_values? {is : List Nat} {vs : List Value} (h : values? p is = some vs) :
    p.fetchValues is = .ok vs := by
  induction is generalizing vs with
  | nil =>
    obtain rfl := some.inj h
    rfl
  | cons i is ih =>
    obtain ⟨c, hc, h⟩ := bind_eq_some_iff.1 h
    obtain ⟨v, hv, h⟩ := bind_eq_some_iff.1 h
    obtain ⟨ws, hws, h⟩ := bind_eq_some_iff.1 h
    obtain rfl := some.inj h
    have htail : is.mapM (fun i => do
        let c ← p.fetch i
        return valueOf c) = (.ok ws : Checked (List Value)) := ih hws
    rw [fetchValues, mapM_cons, fetch_of_at? hc, htail, ← valueOf_of_valueOf? hv]
    rfl

theorem bootstrapAt_of_bootstrap? {n : Nat} {h : Handle} {args : List Value}
    (hb : bootstrap? p n = some (h, args)) : p.bootstrapAt n = .ok (h, args) := by
  obtain ⟨⟨i, is⟩, hwords, hb⟩ := bind_eq_some_iff.1 hb
  obtain ⟨c, hc, hb⟩ := bind_eq_some_iff.1 hb
  obtain ⟨h', hh, hb⟩ := bind_eq_some_iff.1 hb
  obtain ⟨vs, hvs, hb⟩ := bind_eq_some_iff.1 hb
  obtain ⟨rfl, rfl⟩ := Prod.mk.inj (some.inj hb)
  have hwords' : bootstrapWords n (wordsOf p.bootstrapBytes.toList) = .ok (i, is) := by
    cases hw : bootstrapWords n (wordsOf p.bootstrapBytes.toList) with
    | error e => rw [hw] at hwords; cases hwords
    | ok r => rw [hw] at hwords; rw [some.inj hwords]
  have hvalue : valueOf c = .handle h' := by
    cases c <;> first | cases hh; rfl | cases hh
  rw [bootstrapAt, hwords']
  simp only [bind, Except.bind, fetch_of_at? hc, hvalue, fetchValues_of_values? hvs]
  rfl

end Pool

/-! ## Instructions -/

namespace Machine

def Shape.format : Shape → Opcode.Format
  | bare => .plain
  | byte => .byte
  | short => .short
  | constant8 => .ldc
  | constant16 => .ldcW
  | slot => .var
  | fixedSlot => .implicitVar
  | increment => .iinc
  | branch | pendingBranch => .label
  | wideBranch | pendingWideBranch => .wideLabel
  | tableSwitch => .tableSwitch
  | lookupSwitch => .lookupSwitch
  | field => .field
  | method => .method
  | interfaceMethod => .interfaceMethod
  | dynamic => .dynamic
  | type => .type
  | wide => .wide
  | multiArray => .multiArray

theorem format_ofByte {b : UInt8} {s : Shape} (h : shape? b.toNat = some s) :
    Opcode.Format.ofByte b = s.format := by
  have hall : ∀ op < 221, (shape? op).map Shape.format =
      some (Opcode.Format.ofByte (UInt8.ofNat op)) := by
    decide +kernel
  have hb := hall b.toNat (Nat.lt_succ_of_le (le_of_shape? h))
  rw [h, UInt8.ofNat_toNat] at hb
  exact (some.inj hb).symm

/-- The instructions that stand for what is read at an offset when the code is written again: those
that a pending jump turns into, and else the instruction itself. -/
def Decoded.rewritten (o : Nat) (d : Decoded) : List (Instruction Int) :=
  match d.isPending, d.instruction with
  | true, .jump op t =>
    if op = 200 then [.jump 200 t]
    else if op = 167 ∨ op = 168 then [.jump (op + 33) t]
    else [.jump (invertJump op) (o + 3), .jump 200 t]
  | _, i => [i]

/-- Whether a frame has to stand behind what is written for an instruction. -/
def Decoded.wantsFrame (d : Decoded) : Bool :=
  match d.isPending, d.instruction with
  | true, .jump op _ => op ≠ 167 ∧ op ≠ 168
  | _, _ => false

def Decoded.step (o : Nat) (d : Decoded) :
    DecodedStep := ⟨d.rewritten o, o + d.length, d.wantsFrame⟩

end Machine

namespace Code

variable {code : Code} {p : Pool} {o : Nat} {op : Nat} {d : Decoded}

theorem fetch_of_constantInstruction? {s : Shape} {x : Instruction Int}
    (h : constantInstruction? p s op (code.toList.drop (o + 1)) = some x) :
    ∃ i k, code.unsigned16 ((o : Int) + 1) = .ok i ∧ p.fetch i = .ok k ∧
      reference? p op (code.toList.drop (o + 1)) s k = some x := by
  obtain ⟨i, hi, h⟩ := bind_eq_some_iff.1 h
  obtain ⟨k, hk, h⟩ := bind_eq_some_iff.1 h
  exact ⟨_, k, unsigned16_of_slice? hi (by omega), Pool.fetch_of_at? hk, h⟩

section

variable {bs : List UInt8} {k : Constant} {x : Instruction Int}

theorem reference?_field (h : reference? p op bs .field k = some x) :
    x = .field op k.first k.second k.third := by
  cases k with
  | fieldRef owner name desc => exact (some.inj h).symm
  | _ => cases h

theorem reference?_method {s : Shape} (hs : s = .method ∨ s = .interfaceMethod)
    (h : reference? p op bs s k = some x) :
    x = .invoke op k.first k.second k.third (k.tag == 11) := by
  rcases hs with rfl | rfl <;> cases k with
  | methodRef owner name desc | interfaceMethodRef owner name desc => exact (some.inj h).symm
  | _ => cases h

theorem reference?_type (h : reference? p op bs .type k = some x) : x = .type op k.first := by
  cases k with
  | classRef name => exact (some.inj h).symm
  | _ => cases h

theorem reference?_multiArray (h : reference? p op bs .multiArray k = some x) :
    ∃ dims, slice? 2 1 bs = some dims ∧ x = .multiArray k.first (unsigned dims) := by
  cases k with
  | classRef name =>
    obtain ⟨dims, hdims, rfl⟩ := map_eq_some_iff.1 h
    exact ⟨dims, hdims, rfl⟩
  | _ => cases h

theorem reference?_dynamic (h : reference? p op bs .dynamic k = some x) :
    ∃ name desc n method args, k = .invokeDynamic name desc n ∧
      p.bootstrapAt n = .ok (method, args) ∧ x = .dynamic name desc method args := by
  cases k with
  | invokeDynamic name desc n =>
    obtain ⟨⟨method, args⟩, hsite, rfl⟩ := map_eq_some_iff.1 h
    exact ⟨name, desc, n, method, args, rfl, Pool.bootstrapAt_of_bootstrap? hsite, rfl⟩
  | _ => cases h

end

theorem value_of_load? {i : Nat} {isWide : Bool} {x : Instruction Int}
    (h : load? p i isWide = some x) : ∃ k, p.fetch i = .ok k ∧ x = .constant (Pool.valueOf k) := by
  obtain ⟨k, hk, h⟩ := bind_eq_some_iff.1 h
  split at h
  · obtain ⟨v, hv, h⟩ := bind_eq_some_iff.1 h
    exact ⟨k, Pool.fetch_of_at? hk, by rw [Pool.valueOf_of_valueOf? hv]; exact (some.inj h).symm⟩
  · cases h

theorem decodeImplicit_eq (h : shape? op = some .fixedSlot) (i : Int) :
    decodeImplicit i op =
      ⟨[.var (Machine.fixedSlot op).1 (Machine.fixedSlot op).2], i + 1, false⟩ := by
  have hall : ∀ op < 221, shape? op = some .fixedSlot →
      (if istore.code < op then (istore.code, istore0.code)
        else (iload.code, iload0.code)) =
        (if op ≤ 45 then (21, 26) else (54, 59)) := by
    decide +kernel
  have hop := hall op (Nat.lt_succ_of_le (le_of_shape? h)) h
  unfold decodeImplicit Machine.fixedSlot
  rw [hop]
  by_cases h45 : op ≤ 45
  · simp only [if_pos h45]
  · simp only [if_neg h45]

theorem decodeJump_branch {x : List UInt8} (h : shape? op = some .branch)
    (hx : slice? 0 2 (code.toList.drop (o + 1)) = some x) :
    code.decodeJump o op = .ok (Decoded.step o ⟨.jump op (o + signed x), 3, false⟩) := by
  have hlt : op < pendingIfeq := by
    have := Item.branch_iff.1 h
    show op < 202
    omega
  simp only [decodeJump, if_pos hlt, bind, Except.bind,
    signed16_of_slice? hx (j := (o : Int) + 1) (by omega)]
  rfl

theorem decodeJump_pending {x : List UInt8} (h : shape? op = some .pendingBranch)
    (hx : slice? 0 2 (code.toList.drop (o + 1)) = some x) :
    code.decodeJump o op =
      .ok (Decoded.step o ⟨.jump (pendingFor op) (o + unsigned x), 3, true⟩) := by
  have hall : ∀ op < 221, shape? op = some .pendingBranch →
      ¬ op < pendingIfeq ∧ pendingJump op = pendingFor op ∧ (pendingFor op : Int) ≠ 200 := by
    decide +kernel
  obtain ⟨hlt, hjump, hne⟩ := hall op (Nat.lt_succ_of_le (le_of_shape? h)) h
  have hcode : (goto.code : Int) = 167 ∧ (jsr.code : Int) = 168 ∧
      (gotoW.code : Int) = 200 := by
    decide
  rw [decodeJump, if_neg hlt, unsigned16_of_slice? hx (j := (o : Int) + 1) (by omega)]
  simp only [bind, Except.bind, hjump, hcode.1, hcode.2.1, hcode.2.2, Decoded.step,
    Decoded.rewritten, Decoded.wantsFrame, if_neg hne]
  by_cases hgoto : (pendingFor op : Int) = 167 ∨ (pendingFor op : Int) = 168
  · rw [if_pos hgoto, if_pos hgoto, decide_eq_false (by omega)]
    rfl
  · rw [if_neg hgoto, if_neg hgoto, decide_eq_true (by omega)]
    rfl

theorem decodeWideJump_branch {x : List UInt8} (h : shape? op = some .wideBranch)
    (hx : slice? 0 4 (code.toList.drop (o + 1)) = some x) :
    code.decodeWideJump o op = .ok (Decoded.step o ⟨.jump op (o + signed x), 5, false⟩) := by
  have hne : ¬ op = pendingGotoW := by
    rintro rfl
    exact absurd h (by decide)
  simp only [decodeWideJump, if_neg hne, bind, Except.bind,
    signed32_of_slice? hx (j := (o : Int) + 1) (by omega)]
  rfl

theorem decodeWideJump_pending {x : List UInt8} (h : shape? op = some .pendingWideBranch)
    (hx : slice? 0 4 (code.toList.drop (o + 1)) = some x) :
    code.decodeWideJump o op = .ok (Decoded.step o ⟨.jump 200 (o + signed x), 5, true⟩) := by
  obtain rfl : op = pendingGotoW := by
    have hall : ∀ op < 221, shape? op = some .pendingWideBranch → op = 220 := by decide +kernel
    exact hall op (Nat.lt_succ_of_le (le_of_shape? h)) h
  simp only [decodeWideJump, bind, Except.bind,
    signed32_of_slice? hx (j := (o : Int) + 1) (by omega)]
  rfl

theorem decodeWide_eq (h : wide? (code.toList.drop (o + 1)) = some d) :
    code.decodeWide o = .ok (d.step o) := by
  obtain ⟨x, hx, h⟩ := bind_eq_some_iff.1 h
  obtain ⟨slot, hslot, h⟩ := bind_eq_some_iff.1 h
  simp only [decodeWide, bind, Except.bind,
    unsigned8_of_slice? hx (j := (o : Int) + 1) (by omega),
    unsigned16_of_slice? hslot (j := (o : Int) + 2) (by omega)]
  dsimp only at h
  split at h
  next hiinc =>
    obtain ⟨amount, hamount, h⟩ := bind_eq_some_iff.1 h
    obtain rfl := some.inj h
    rw [if_pos (show unsigned x = iinc.code from hiinc)]
    simp only [signed16_of_slice? hamount (j := (o : Int) + 4) (by omega)]
    rfl
  next hiinc =>
    split at h
    · obtain rfl := some.inj h
      rw [if_neg (show ¬ unsigned x = iinc.code from hiinc)]
      rfl
    · cases h

theorem switchOperands_eq (o : Nat) : switchOperands o = ((o + 1 + padding o : Nat) : Int) := by
  simp only [switchOperands, padding]
  omega

theorem decodeTableSwitch_eq (h : tableSwitch? o (code.toList.drop (o + 1)) = some d) :
    code.decodeTableSwitch o = .ok (d.step o) := by
  obtain ⟨fallback, hfallback, h⟩ := bind_eq_some_iff.1 h
  obtain ⟨low, hlow, h⟩ := bind_eq_some_iff.1 h
  obtain ⟨high, hhigh, h⟩ := bind_eq_some_iff.1 h
  split at h
  next hle =>
    obtain ⟨rows, hrows, h⟩ := bind_eq_some_iff.1 h
    obtain rfl := some.inj h
    rw [decodeTableSwitch, switchOperands_eq]
    simp only [bind, Except.bind,
      signed32_of_slice? hfallback (j := ((o + 1 + padding o : Nat) : Int)) rfl,
      signed32_of_slice? hlow (j := ((o + 1 + padding o : Nat) : Int) + 4) (by omega),
      signed32_of_slice? hhigh (j := ((o + 1 + padding o : Nat) : Int) + 8) (by omega),
      if_neg (show ¬ signed high - signed low + 1 < 0 by omega),
      signed32s_of_words? hrows (j := ((o + 1 + padding o : Nat) : Int) + 12) (by omega)]
    have hnext : ((o + 1 + padding o : Nat) : Int) + 12 + 4 * (signed high - signed low + 1) =
        o + ((1 + padding o + 12 + 4 * (signed high - signed low + 1).toNat : Nat) : Int) := by
      omega
    rw [hnext]
    rfl
  next => cases h

theorem decodeLookupSwitch_eq (h : lookupSwitch? o (code.toList.drop (o + 1)) = some d) :
    code.decodeLookupSwitch o = .ok (d.step o) := by
  obtain ⟨fallback, hfallback, h⟩ := bind_eq_some_iff.1 h
  obtain ⟨count, hcount, h⟩ := bind_eq_some_iff.1 h
  split at h
  next hle =>
    obtain ⟨rows, hrows, h⟩ := bind_eq_some_iff.1 h
    obtain rfl := some.inj h
    obtain ⟨hkeys, htargets⟩ :=
      signed32s_of_pairs? hrows (j := ((o + 1 + padding o : Nat) : Int) + 8) (by omega)
    rw [show ((o + 1 + padding o : Nat) : Int) + 8 + 4 = (o + 1 + padding o : Nat) + 12 by omega]
      at htargets
    rw [decodeLookupSwitch, switchOperands_eq]
    simp only [bind, Except.bind,
      signed32_of_slice? hfallback (j := ((o + 1 + padding o : Nat) : Int)) rfl,
      signed32_of_slice? hcount (j := ((o + 1 + padding o : Nat) : Int) + 4) (by omega),
      if_neg (show ¬ signed count < 0 by omega), hkeys, htargets]
    have hnext : ((o + 1 + padding o : Nat) : Int) + 8 + 8 * signed count =
        o + ((1 + padding o + 8 + 8 * (signed count).toNat : Nat) : Int) := by
      omega
    rw [hnext, List.map_map]
    rfl
  next => cases h

/-- One case for each layout of operands; the longer ones are the lemmas before. -/
theorem decodeAt_of_shape {s : Shape} (hs : shape? op = some s) (hop : code.unsigned8 o = .ok op)
    (hformat : code.formatAt o = .ok s.format)
    (h : operands? p o op (code.toList.drop (o + 1)) s = some d) :
    code.decodeAt p o = .ok (d.step o) := by
  unfold decodeAt
  simp only [hop, hformat, bind, Except.bind]
  cases s with
  | bare =>
    obtain rfl := some.inj h
    rfl
  | byte =>
    obtain ⟨x, hx, h⟩ := bind_eq_some_iff.1 h
    obtain rfl := some.inj h
    simp only [Shape.format, signed8_of_slice? hx (j := (o : Int) + 1) (by omega)]
    rfl
  | short =>
    obtain ⟨x, hx, h⟩ := bind_eq_some_iff.1 h
    obtain rfl := some.inj h
    simp only [Shape.format, signed16_of_slice? hx (j := (o : Int) + 1) (by omega)]
    rfl
  | constant8 =>
    obtain ⟨i, hi, h⟩ := bind_eq_some_iff.1 h
    obtain ⟨x, hx, h⟩ := bind_eq_some_iff.1 h
    obtain rfl := some.inj h
    obtain ⟨k, hk, rfl⟩ := value_of_load? hx
    simp only [Shape.format, unsigned8_of_slice? hi (j := (o : Int) + 1) (by omega), hk]
    rfl
  | constant16 =>
    obtain ⟨i, hi, h⟩ := bind_eq_some_iff.1 h
    obtain ⟨x, hx, h⟩ := bind_eq_some_iff.1 h
    obtain rfl := some.inj h
    obtain ⟨k, hk, rfl⟩ := value_of_load? hx
    simp only [Shape.format, unsigned16_of_slice? hi (j := (o : Int) + 1) (by omega), hk]
    rfl
  | slot =>
    obtain ⟨x, hx, h⟩ := bind_eq_some_iff.1 h
    obtain rfl := some.inj h
    simp only [Shape.format, unsigned8_of_slice? hx (j := (o : Int) + 1) (by omega)]
    rfl
  | fixedSlot =>
    obtain rfl := some.inj h
    simp only [Shape.format, decodeImplicit_eq hs]
    rfl
  | increment =>
    obtain ⟨x, hx, h⟩ := bind_eq_some_iff.1 h
    obtain ⟨y, hy, h⟩ := bind_eq_some_iff.1 h
    obtain rfl := some.inj h
    simp only [Shape.format, unsigned8_of_slice? hx (j := (o : Int) + 1) (by omega),
      signed8_of_slice? hy (j := (o : Int) + 2) (by omega)]
    rfl
  | field =>
    obtain ⟨x, hx, h⟩ := bind_eq_some_iff.1 h
    obtain rfl := some.inj h
    obtain ⟨i, k, hi, hk, hx⟩ := fetch_of_constantInstruction? hx
    obtain rfl := reference?_field hx
    simp only [Shape.format, hi, hk]
    rfl
  | method =>
    obtain ⟨x, hx, h⟩ := bind_eq_some_iff.1 h
    obtain rfl := some.inj h
    obtain ⟨i, k, hi, hk, hx⟩ := fetch_of_constantInstruction? hx
    obtain rfl := reference?_method (.inl rfl) hx
    simp only [Shape.format, hi, hk]
    rfl
  | interfaceMethod =>
    obtain ⟨x, hx, h⟩ := bind_eq_some_iff.1 h
    obtain ⟨_, -, h⟩ := bind_eq_some_iff.1 h
    obtain rfl := some.inj h
    obtain ⟨i, k, hi, hk, hx⟩ := fetch_of_constantInstruction? hx
    obtain rfl := reference?_method (.inr rfl) hx
    simp only [Shape.format, hi, hk]
    rfl
  | type =>
    obtain ⟨x, hx, h⟩ := bind_eq_some_iff.1 h
    obtain rfl := some.inj h
    obtain ⟨i, k, hi, hk, hx⟩ := fetch_of_constantInstruction? hx
    obtain rfl := reference?_type hx
    simp only [Shape.format, hi, hk]
    rfl
  | multiArray =>
    obtain ⟨x, hx, h⟩ := bind_eq_some_iff.1 h
    obtain rfl := some.inj h
    obtain ⟨i, k, hi, hk, hx⟩ := fetch_of_constantInstruction? hx
    obtain ⟨dims, hdims, rfl⟩ := reference?_multiArray hx
    simp only [Shape.format, hi, hk, unsigned8_of_slice? hdims (j := (o : Int) + 3) (by omega)]
    rfl
  | dynamic =>
    obtain ⟨x, hx, h⟩ := bind_eq_some_iff.1 h
    obtain ⟨_, -, h⟩ := bind_eq_some_iff.1 h
    obtain rfl := some.inj h
    obtain ⟨i, k, hi, hk, hx⟩ := fetch_of_constantInstruction? hx
    obtain ⟨name, desc, n, method, args, rfl, hsite, rfl⟩ := reference?_dynamic hx
    simp only [Shape.format, hi, hk, hsite]
    rfl
  | wide => exact decodeWide_eq h
  | branch =>
    obtain ⟨x, hx, h⟩ := bind_eq_some_iff.1 h
    exact some.inj h ▸ decodeJump_branch hs hx
  | wideBranch =>
    obtain ⟨x, hx, h⟩ := bind_eq_some_iff.1 h
    exact some.inj h ▸ decodeWideJump_branch hs hx
  | pendingBranch =>
    obtain ⟨x, hx, h⟩ := bind_eq_some_iff.1 h
    exact some.inj h ▸ decodeJump_pending hs hx
  | pendingWideBranch =>
    obtain ⟨x, hx, h⟩ := bind_eq_some_iff.1 h
    exact some.inj h ▸ decodeWideJump_pending hs hx
  | tableSwitch => exact decodeTableSwitch_eq h
  | lookupSwitch => exact decodeLookupSwitch_eq h

theorem decodeAt_eq (h : decodeAt? p code.toList o = some d) :
    code.decodeAt p o = .ok (d.step o) := by
  rw [decodeAt?] at h
  cases hb : code.toList.drop o with
  | nil => rw [hb] at h; cases h
  | cons b bs =>
    rw [hb] at h
    obtain ⟨s, hs, h⟩ := bind_eq_some_iff.1 h
    have hget : code[o]? = some b := by
      rw [← Array.getElem?_toList, ← head?_drop, hb]
      rfl
    have hbs : bs = code.toList.drop (o + 1) := by
      rw [← tail_drop, hb]
      rfl
    rw [hbs] at h
    refine decodeAt_of_shape hs (unsigned8_of_getElem? hget rfl) ?_ h
    simp [formatAt, Checked.fetch, hget, bind, Except.bind, pure, Except.pure, format_ofByte hs]

/-! ## All instructions -/

def stepsOf (ds : List (Nat × Decoded)) : List (Int × DecodedStep) :=
  ds.map fun x => ((x.1 : Int), x.2.step x.1)

theorem decodeFrom_eq {ds : List (Nat × Decoded)} {n : Nat} (h : Disassembles p code.toList o ds)
    (hpos : ∀ x ∈ ds, 0 < x.2.length) (hn : code.size < n + o) (acc : Array (Int × DecodedStep)) :
    code.decodeFrom p n o acc = .ok (acc ++ (stepsOf ds).toArray) := by
  induction h generalizing n acc with
  | done => cases n <;> simp [decodeFrom, stepsOf, pure, Except.pure]
  | @step o d ds here rest ih =>
    have hlt : o < code.size := by
      rw [decodeAt?] at here
      by_contra hge
      rw [drop_eq_nil_of_le (by simpa using hge)] at here
      cases here
    have hd := hpos _ (mem_cons_self ..)
    obtain ⟨n, rfl⟩ : ∃ m, n = m + 1 := ⟨n - 1, by omega⟩
    have hrest := ih (n := n) (fun x hx => hpos x (mem_cons_of_mem _ hx)) (by simp at hd; omega)
      (acc.push ((o : Int), d.step o))
    rw [decodeFrom, if_neg (by omega), decodeAt_eq here]
    simp only [bind, Except.bind]
    show code.decodeFrom p n ((o : Int) + d.length) _ = _
    rw [← Int.natCast_add, hrest]
    simp [stepsOf]

/-- Code that the machine can read is decoded whole. -/
theorem decode_eq {ds : List (Nat × Decoded)} (h : Disassembles p code.toList 0 ds)
    (hpos : ∀ x ∈ ds, 0 < x.2.length) : code.decode p = .ok (stepsOf ds).toArray := by
  have hall := decodeFrom_eq h hpos (n := code.size + 1) (by omega) #[]
  rwa [Array.empty_append] at hall

end Code

end ClassAssembler
