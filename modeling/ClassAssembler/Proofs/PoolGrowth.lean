import Mathlib.Data.List.ReduceOption
import ClassAssembler.Code.Decode
import ClassAssembler.Proofs.EncodedTexts
import ClassAssembler.Proofs.Pairing
import ClassAssembler.Proofs.Run
import ClassAssembler.Proofs.SymbolTables

/-!
# The growth of constant pools

A pool is only ever extended: its entries, its bytes and its bootstrap methods stay where they are.
`Pool.Wf` says what holds of every pool that work on pools leads to.  The index of a constant is
the place where it stands, so no constant stands twice; the bytes spell the entries one after
another, each with the indices of the constants it refers to; and the bootstrap methods are
numbered in the order of their bytes.

`PoolM.Interns` is the specification that all functions giving an index share.
-/

namespace ClassAssembler

open List

namespace Constant

def rank : Constant → Nat
  | utf8 _ | integer _ | float _ | long _ | double _ => 0
  | classRef _ | string _ | methodType _ | nameAndType _ _ => 1
  | fieldRef .. | methodRef .. | interfaceMethodRef .. | invokeDynamic .. => 2
  | methodHandle .. => 3

def slots (c : Constant) : List (Option Constant) :=
  if c.isWide then [some c, none] else [some c]

def parts : Constant → List Constant
  | classRef t | string t | methodType t => [utf8 t]
  | nameAndType name desc => [utf8 name, utf8 desc]
  | fieldRef owner name desc | methodRef owner name desc | interfaceMethodRef owner name desc =>
    [classRef owner, nameAndType name desc]
  | methodHandle kind owner name desc ofInterface =>
    [if kind ≤ 4 then fieldRef owner name desc
      else PoolM.methodConstant owner name desc ofInterface]
  | invokeDynamic name desc _ => [nameAndType name desc]
  | _ => []

theorem reduceOption_slots (c : Constant) : c.slots.reduceOption = [c] := by
  unfold slots
  split <;> simp [reduceOption]

end Constant

namespace Pool

variable {c : Constant} {i k : Nat} {p q : Pool}

open Buffer in
/-- The bytes that stand for a constant in a pool. -/
inductive Spells (p : Pool) : Constant → List UInt8 → Prop
  | utf8 (t : Text) : Spells p (.utf8 t) (1 :: textBytes t)
  | integer (v : Int32) : Spells p (.integer v) (3 :: bytes32 v.toInt)
  | float (bits : UInt32) : Spells p (.float bits) (4 :: bytes32 bits.toNat)
  | long (v : Int64) : Spells p (.long v) (5 :: bytes64 v.toInt)
  | double (bits : UInt64) : Spells p (.double bits) (6 :: bytes64 bits.toNat)
  | classRef {name : Text} {i : Nat} (h : p.at? i = some (.utf8 name)) :
      Spells p (.classRef name) (7 :: bytes16 i)
  | string {t : Text} {i : Nat} (h : p.at? i = some (.utf8 t)) :
      Spells p (.string t) (8 :: bytes16 i)
  | methodType {desc : Text} {i : Nat} (h : p.at? i = some (.utf8 desc)) :
      Spells p (.methodType desc) (16 :: bytes16 i)
  | nameAndType {name desc : Text} {i j : Nat} (hname : p.at? i = some (.utf8 name))
      (hdesc : p.at? j = some (.utf8 desc)) :
      Spells p (.nameAndType name desc) (12 :: (bytes16 i ++ bytes16 j))
  | fieldRef {owner name desc : Text} {i j : Nat} (howner : p.at? i = some (.classRef owner))
      (hmember : p.at? j = some (.nameAndType name desc)) :
      Spells p (.fieldRef owner name desc) (9 :: (bytes16 i ++ bytes16 j))
  | methodRef {owner name desc : Text} {i j : Nat} (howner : p.at? i = some (.classRef owner))
      (hmember : p.at? j = some (.nameAndType name desc)) :
      Spells p (.methodRef owner name desc) (10 :: (bytes16 i ++ bytes16 j))
  | interfaceMethodRef {owner name desc : Text} {i j : Nat}
      (howner : p.at? i = some (.classRef owner))
      (hmember : p.at? j = some (.nameAndType name desc)) :
      Spells p (.interfaceMethodRef owner name desc) (11 :: (bytes16 i ++ bytes16 j))
  | fieldHandle {kind : Nat} {owner name desc : Text} {ofInterface : Bool} {i : Nat}
      (hmin : 1 ≤ kind) (hkind : kind ≤ 4) (h : p.at? i = some (.fieldRef owner name desc)) :
      Spells p (.methodHandle kind owner name desc ofInterface)
        (15 :: low8 kind :: bytes16 i)
  | methodHandle {kind : Nat} {owner name desc : Text} {ofInterface : Bool} {i : Nat}
      (hkind : 4 < kind) (hmax : kind ≤ 9)
      (h : p.at? i = some (PoolM.methodConstant owner name desc ofInterface)) :
      Spells p (.methodHandle kind owner name desc ofInterface)
        (15 :: low8 kind :: bytes16 i)
  | invokeDynamic {name desc : Text} {n i : Nat} (hn : n < p.bootstrapCount)
      (h : p.at? i = some (.nameAndType name desc)) :
      Spells p (.invokeDynamic name desc n) (18 :: (bytes16 n ++ bytes16 i))

def Spelled (p : Pool) : Prop :=
  ∃ chunks, List.Forall₂ p.Spells p.entries.toList.reduceOption chunks ∧
    p.bytes.toList = chunks.flatten

/-- A bootstrap method by its indices: a handle and the arguments. -/
structure Block where
  method : UInt16
  args : List UInt16
deriving DecidableEq

def Block.words (b : Block) : List UInt16 := b.method :: UInt16.ofNat b.args.length :: b.args

def wordBytes (ws : List UInt16) : List UInt8 := ws.flatMap fun w => Buffer.bytes16 w.toNat

def blockBytes (bs : List Block) : List UInt8 := bs.flatMap fun b => wordBytes b.words

theorem blockBytes_cons (b : Block) (bs : List Block) :
    blockBytes (b :: bs) = wordBytes b.words ++ blockBytes bs :=
  flatMap_cons

@[simp] theorem blockBytes_append (bs cs : List Block) :
    blockBytes (bs ++ cs) = blockBytes bs ++ blockBytes cs :=
  flatMap_append

/-- The key of a bootstrap method behind others. -/
def Block.keyBehind (b : Block) (bs : List Block) : TableKey :=
  .ofBootstrap (wordBytes b.words) (blockBytes bs).length

/-- The bootstrap methods of a pool in order.  Each is entered under its number. -/
structure Holds (p : Pool) (bs : List Block) : Prop where
  bytes : p.bootstrapBytes.toList = blockBytes bs
  count : p.bootstrapCount = bs.length
  nodup : bs.Nodup
  keys : ∀ k n, ¬k.IsPlain → ((k, n) ∈ p.symbolTable.toList ↔ ∃ b, bs[n]? = some b ∧
    k = b.keyBehind (bs.take n))

/-- The arguments of every bootstrap method can be counted in two bytes. -/
def Short (bs : List Block) : Prop := ∀ b ∈ bs, b.args.length < 65536

/-- What a pool may be allowed to lack. -/
structure Slack where
  /-- A bootstrap method whose call site is still to be entered. -/
  site : Option Nat := none
  /-- Whether the arguments of bootstrap methods are few enough to be counted. -/
  counted : Prop := True

/-- What holds of every pool that work on pools leads to, as far as nothing is lacking. -/
structure Wf (p : Pool) (slack : Slack := {}) : Prop where
  functional : p.symbolTable.Functional
  index : ∀ c i, p.index? c = some i ↔ p.at? i = some c
  /-- Index zero is empty; behind it constants stand side by side. -/
  slots : ∃ cs : List Constant, p.entries.toList = none :: cs.flatMap Constant.slots
  bounded : p.failure = none → p.entries.size ≤ maxCount
  spelled : p.Spelled
  ordered : ∀ i c, p.at? i = some c → ∀ d ∈ c.parts, ∃ j < i, p.at? j = some d
  blocks : ∃ bs, p.Holds bs ∧ (slack.counted → Short bs)
  backed : ∀ n < p.bootstrapCount, slack.site = some n ∨
    ∃ i name desc, p.at? i = some (.invokeDynamic name desc n)
  /-- Every text fits its two-byte length field, or it is remembered that one did not. -/
  texts : p.bytes.tooLong = none → ∀ i t, p.at? i = some (.utf8 t) →
    t.modifiedUtf8.length ≤ Buffer.textLimit

/-- One pool continues another: everything that was written stays where it is. -/
structure Extends (p q : Pool) : Prop where
  entries : p.entries.toList <+: q.entries.toList
  bytes : p.bytes.toList <+: q.bytes.toList
  bootstraps : p.bootstrapBytes.toList <+: q.bootstrapBytes.toList
  count : p.bootstrapCount ≤ q.bootstrapCount
  table : ∀ e ∈ p.symbolTable.toList, e ∈ q.symbolTable.toList
  failure : ∀ f, p.failure = some f → q.failure = some f

/-! ## Extensions -/

theorem Extends.refl (p : Pool) : p.Extends p :=
  ⟨prefix_rfl, prefix_rfl, prefix_rfl, Nat.le_refl _, fun _ h => h, fun _ h => h⟩

theorem Extends.trans {r : Pool} (h : p.Extends q) (h' : q.Extends r) : p.Extends r :=
  ⟨h.entries.trans h'.entries, h.bytes.trans h'.bytes, h.bootstraps.trans h'.bootstraps,
    Nat.le_trans h.count h'.count, fun e he => h'.table e (h.table e he),
    fun f hf => h'.failure f (h.failure f hf)⟩

theorem Extends.no_failure (h : p.Extends q) (hq : q.failure = none) : p.failure = none := by
  cases hp : p.failure with
  | none => rfl
  | some f => rw [h.failure f hp] at hq; cases hq

theorem at?_eq_some : p.at? i = some c ↔ p.entries.toList[i]? = some (some c) := by
  rw [at?, Option.join_eq_some_iff, Array.getElem?_toList]

theorem Extends.at? (h : p.Extends q) (hp : p.at? i = some c) : q.at? i = some c := by
  rw [at?_eq_some] at hp ⊢
  obtain ⟨l, hl⟩ := h.entries
  rw [← hl, getElem?_append_left (List.getElem?_eq_some_iff.1 hp).1]
  exact hp

theorem Spells.mono (h : p.Extends q) {bs : List UInt8} (hs : p.Spells c bs) : q.Spells c bs := by
  cases hs with
  | utf8 t => exact .utf8 t
  | integer v => exact .integer v
  | float bits => exact .float bits
  | long v => exact .long v
  | double bits => exact .double bits
  | classRef h₁ => exact .classRef (h.at? h₁)
  | string h₁ => exact .string (h.at? h₁)
  | methodType h₁ => exact .methodType (h.at? h₁)
  | nameAndType h₁ h₂ => exact .nameAndType (h.at? h₁) (h.at? h₂)
  | fieldRef h₁ h₂ => exact .fieldRef (h.at? h₁) (h.at? h₂)
  | methodRef h₁ h₂ => exact .methodRef (h.at? h₁) (h.at? h₂)
  | interfaceMethodRef h₁ h₂ => exact .interfaceMethodRef (h.at? h₁) (h.at? h₂)
  | fieldHandle hm hk h₁ => exact .fieldHandle hm hk (h.at? h₁)
  | methodHandle hk hm h₁ => exact .methodHandle hk hm (h.at? h₁)
  | invokeDynamic hn h₁ => exact .invokeDynamic (Nat.lt_of_lt_of_le hn h.count) (h.at? h₁)

theorem Spells.parts {bs : List UInt8} (h : p.Spells c bs) :
    ∀ d ∈ c.parts, ∃ i, p.at? i = some d := by
  intro d hd
  cases h with
  | utf8 | integer | float | long | double => cases hd
  | @classRef _ i h | @string _ i h | @methodType _ i h | @invokeDynamic _ _ _ i _ h =>
    rw [mem_singleton.1 hd]
    exact ⟨i, h⟩
  | @fieldHandle _ _ _ _ _ i _ hkind h =>
    rw [mem_singleton.1 hd, if_pos hkind]
    exact ⟨i, h⟩
  | @methodHandle _ _ _ _ _ i hkind _ h =>
    rw [mem_singleton.1 hd, if_neg (Nat.not_le.2 hkind)]
    exact ⟨i, h⟩
  | @nameAndType _ _ i j h h' | @fieldRef _ _ _ i j h h' | @methodRef _ _ _ i j h h'
  | @interfaceMethodRef _ _ _ i j h h' =>
    rcases mem_pair.1 hd with rfl | rfl
    · exact ⟨i, h⟩
    · exact ⟨j, h'⟩

/-! ## Well-formed pools -/

variable {slack : Slack}

theorem Wf.index_unique (hp : p.Wf slack) {j : Nat} (hi : p.at? i = some c)
    (hj : p.at? j = some c) : i = j := by
  rw [← hp.index] at hi hj
  rw [hi] at hj
  exact Option.some.inj hj

theorem at?_lt_size (hi : p.at? i = some c) : i < p.entries.size := by
  simpa using (List.getElem?_eq_some_iff.1 (at?_eq_some.1 hi)).1

theorem Wf.at?_lt (hp : p.Wf slack) (hf : p.failure = none) (hi : p.at? i = some c) :
    i < 65536 := by
  have hlt := at?_lt_size hi
  have hmax : p.entries.size ≤ 0xFFFF := hp.bounded hf
  omega

theorem Wf.at?_pos (hp : p.Wf slack) (hi : p.at? i = some c) : 0 < i := by
  obtain ⟨cs, hcs⟩ := hp.slots
  rcases Nat.eq_zero_or_pos i with rfl | h
  · rw [at?_eq_some, hcs] at hi
    cases hi
  · exact h

theorem not_mem_symbolTable_empty (e : TableKey × Nat) : e ∉ ({} : Pool).symbolTable.toList := by
  rw [SymbolTable.toList_empty]
  exact not_mem_nil

theorem wf_empty : ({} : Pool).Wf where
  functional := SymbolTable.functional_empty
  index c i := by
    have hat : ({} : Pool).at? i = none := by
      cases i <;> rfl
    have hnone : ({} : Pool).index? c = none := SymbolTable.get?_empty c.key
    rw [hat, hnone]
    simp
  slots := ⟨[], rfl⟩
  bounded _ := by decide
  spelled := ⟨[], .nil, rfl⟩
  ordered i _ h := by
    cases i <;> cases h
  blocks := ⟨[], ⟨rfl, rfl, nodup_nil, fun k n _ => iff_of_false (not_mem_symbolTable_empty _)
    (by simp)⟩, by simp [Short]⟩
  backed _ h := absurd h (Nat.not_lt_zero _)
  texts _ i t h := by
    cases i <;> cases h

theorem Wf.uncounted (hp : p.Wf slack) : p.Wf { slack with counted := False } :=
  ⟨hp.functional, hp.index, hp.slots, hp.bounded, hp.spelled, hp.ordered,
    let ⟨bs, hbs, _⟩ := hp.blocks; ⟨bs, hbs, False.elim⟩, hp.backed, hp.texts⟩

/-! ## New entries -/

def enter (p : Pool) (c : Constant) : Pool :=
  let entries := if c.isWide then (p.entries.push (some c)).push none else p.entries.push (some c)
  { p with entries, symbolTable := p.symbolTable.put c.key p.entries.size entries.size }

theorem toList_enter (p : Pool) (c : Constant) :
    (p.enter c).entries.toList = p.entries.toList ++ c.slots := by
  unfold enter Constant.slots
  split <;> simp

theorem at?_enter (p : Pool) (c : Constant) (i : Nat) :
    (p.enter c).at? i = if i = p.entries.size then some c else p.at? i := by
  have hat (q : Pool) : q.at? i = (q.entries.toList[i]?).join := by
    rw [at?, Array.getElem?_toList]
  rw [hat, hat, toList_enter, Constant.slots]
  rcases Nat.lt_trichotomy i p.entries.size with hlt | rfl | hgt
  · rw [if_neg (Nat.ne_of_lt hlt), getElem?_append_left (by simpa using hlt)]
  · split <;> simp
  · have hout : p.entries.toList[i]? = none := by
      simpa using Nat.le_of_lt hgt
    rw [if_neg (Nat.ne_of_gt hgt), hout, getElem?_append_right (by simpa using Nat.le_of_lt hgt)]
    obtain ⟨k, hk⟩ : ∃ k, i - p.entries.toList.length = k + 1 :=
      ⟨i - p.entries.size - 1, by simp; omega⟩
    rw [hk]
    split
    · cases k <;> simp
    · simp

theorem index?_enter (ht : p.symbolTable.Functional) (hc : p.index? c = none) (d : Constant) :
    (p.enter c).index? d = if d = c then some p.entries.size else p.index? d := by
  have hput : (p.enter c).symbolTable.get? d.key = _ := ht.get?_put (fun _ => hc) d.key_isPlain
  simp only [Constant.agrees_key] at hput
  exact hput

theorem recordFailure_ne_none (p : Pool) (f : Failure) : (p.recordFailure f).failure ≠ none := by
  unfold recordFailure
  split
  · simp_all
  · simp

@[simp] theorem at?_recordFailure (p : Pool) (f : Failure) (i : Nat) :
    (p.recordFailure f).at? i = p.at? i := by
  unfold recordFailure
  split <;> rfl

theorem extends_recordFailure (p : Pool) (f : Failure) : p.Extends (p.recordFailure f) := by
  unfold recordFailure
  split
  · exact .refl p
  next h =>
    refine ⟨prefix_rfl, prefix_rfl, prefix_rfl, Nat.le_refl _, fun _ h => h,
      fun f hf => ?_⟩
    rw [h] at hf
    cases hf

theorem Wf.recordFailure (hp : p.Wf slack) (f : Failure) : (p.recordFailure f).Wf slack := by
  unfold Pool.recordFailure
  split
  · exact hp
  · obtain ⟨chunks, hspells, hbytes⟩ := hp.spelled
    obtain ⟨bs, hbs, hshort⟩ := hp.blocks
    refine ⟨hp.functional, hp.index, hp.slots, by simp, ⟨chunks, ?_, hbytes⟩, hp.ordered,
      ⟨bs, ⟨hbs.bytes, hbs.count, hbs.nodup, hbs.keys⟩, hshort⟩, hp.backed, hp.texts⟩
    refine hspells.imp fun c chunk h => h.mono ?_
    exact ⟨prefix_rfl, prefix_rfl, prefix_rfl, Nat.le_refl _, fun _ h => h,
      by simp_all⟩

/-- A pool has grown by constants whose rank is below a bound. -/
structure Registers (k : Nat) (p q : Pool) (slack : Slack := {}) : Prop where
  wf : q.Wf slack
  extend : p.Extends q
  rank : ∀ d i, q.at? i = some d → p.at? i = some d ∨ d.rank < k

theorem Registers.refl (hp : p.Wf slack) : Registers k p p slack :=
  ⟨hp, .refl p, fun _ _ h => .inl h⟩

theorem Registers.trans {r : Pool} {slack' : Slack} (h : Registers k p q slack')
    (h' : Registers k q r slack) : Registers k p r slack := by
  refine ⟨h'.wf, h.extend.trans h'.extend, fun d i hd => ?_⟩
  rcases h'.rank d i hd with hd | hd
  · exact h.rank d i hd
  · exact .inr hd

theorem Registers.mono {l : Nat} (h : Registers k p q slack) (hkl : k ≤ l) :
    Registers l p q slack :=
  ⟨h.wf, h.extend, fun d i hd => (h.rank d i hd).imp_right fun hr => Nat.lt_of_lt_of_le hr hkl⟩

theorem Wf.enter {b : Buffer} {chunk : List UInt8} (hp : p.Wf slack) (hc : p.index? c = none)
    (hb : b.toList = p.bytes.toList ++ chunk) (hs : p.Spells c chunk)
    (hlong : b.tooLong = none → p.bytes.tooLong = none ∧
      ∀ t, c = .utf8 t → t.modifiedUtf8.length ≤ Buffer.textLimit)
    (hsize : ({ p with bytes := b }.enter c).entries.size ≤ maxCount ∨ p.failure ≠ none) :
    ({ p with bytes := b }.enter c).Wf slack ∧ p.Extends ({ p with bytes := b }.enter c) := by
  have hextends : p.Extends ({ p with bytes := b }.enter c) := by
    refine ⟨?_, ⟨chunk, hb.symm⟩, prefix_rfl, Nat.le_refl _,
      fun _ h => SymbolTable.mem_put.2 (.inr h), fun _ h => h⟩
    rw [toList_enter]
    exact prefix_append _ _
  have hout : p.at? p.entries.size = none := by
    simp [Pool.at?]
  refine ⟨⟨hp.functional.put fun _ => hc, fun d i => ?_, ?_, fun hf => ?_, ?_,
    fun i d hd e he => ?_, ?_, fun n hn => ?_, fun hb i t ht => ?_⟩, hextends⟩
  · rw [at?_enter]
    have hindex : ({ p with bytes := b }.enter c).index? d = if d = c then some p.entries.size
        else p.index? d :=
      index?_enter hp.functional hc d
    have hat : ({ p with bytes := b } : Pool).at? i = p.at? i := rfl
    rw [hindex, hat]
    by_cases hcd : d = c
    · subst hcd
      by_cases hi : i = p.entries.size
      · simp [hi]
      · have hne : p.at? i ≠ some d := by
          rw [Ne, ← hp.index, hc]
          simp
        simp [hi, hne, Ne.symm hi]
    · by_cases hi : i = p.entries.size
      · have hne : p.index? d ≠ some i := by
          rw [Ne, hp.index, hi, hout]
          simp
        simp [hi, hcd, Ne.symm hcd, hi ▸ hne]
      · simp [hi, hcd, hp.index]
  · obtain ⟨cs, hcs⟩ := hp.slots
    exact ⟨cs ++ [c], by rw [toList_enter, hcs]; simp⟩
  · rcases hsize with hsize | hsize
    · exact hsize
    · exact absurd hf hsize
  · obtain ⟨chunks, hspells, hbytes⟩ := hp.spelled
    refine ⟨chunks ++ [chunk], ?_, ?_⟩
    · rw [toList_enter, reduceOption_append, Constant.reduceOption_slots]
      exact rel_append (hspells.imp fun _ _ h => h.mono hextends)
        (.cons (hs.mono hextends) .nil)
    · change b.toList = _
      rw [hb, hbytes]
      simp
  · rw [at?_enter] at hd
    split at hd
    next hi =>
      cases hd
      obtain ⟨j, hj⟩ := hs.parts e he
      exact ⟨j, hi ▸ at?_lt_size hj, hextends.at? hj⟩
    next =>
      obtain ⟨j, hlt, hj⟩ := hp.ordered i d hd e he
      exact ⟨j, hlt, hextends.at? hj⟩
  · obtain ⟨bs, hbs, hshort⟩ := hp.blocks
    refine ⟨bs, ⟨hbs.bytes, hbs.count, hbs.nodup, fun k n hk => ?_⟩, hshort⟩
    refine Iff.trans (SymbolTable.mem_put.trans (or_iff_right ?_)) (hbs.keys k n hk)
    rintro ⟨⟩
    exact hk c.key_isPlain
  · refine (hp.backed n hn).imp_right fun ⟨i, name, desc, hi⟩ => ?_
    exact ⟨i, name, desc, hextends.at? hi⟩
  · obtain ⟨hp', hc'⟩ := hlong hb
    rw [at?_enter] at ht
    split at ht
    · exact hc' t (Option.some.inj ht)
    · exact hp.texts hp' i t ht

end Pool

namespace PoolM

open Pool

@[simp] theorem ends_fail {cause : Cause} {op : String} {args : List Value} {p q : Pool}
    {u : Unit} :
    Ends (fail cause op args) p u q ↔ p.recordFailure ⟨cause, Text.ofString op, args⟩ = q := by
  simp [fail]

@[simp] theorem ends_hasFailed {p q : Pool} {b : Bool} :
    Ends hasFailed p b q ↔ p.failure.isSome = b ∧ p = q := by
  simp only [hasFailed, ends_bind, ends_pool_get, ends_pure]
  constructor
  · rintro ⟨a, t, ⟨rfl, rfl⟩, rfl, rfl⟩
    exact ⟨rfl, rfl⟩
  · rintro ⟨rfl, rfl⟩
    exact ⟨_, _, ⟨rfl, rfl⟩, rfl, rfl⟩

end PoolM

end ClassAssembler
