import ClassAssembler.ClassFile
import ClassAssembler.Proofs.Machine

/-!
# The format of class files

A reader of class files that knows nothing of how they are made.  It takes the magic number, the
version, the constant pool, the header, the fields and methods and the attributes from the front of
the bytes, each by the length or the number written before it; an attribute is read by its length,
and `Format.codeInfo` reads what stands inside the one with the code of a method.

`Parser.Reads p bs a` says that `p` takes exactly `bs` from bytes that begin with them.
`Format.reads_write` is the result for class files: what is written is read back, provided that
every number fits the field it is written to.
-/

namespace ClassAssembler

open List Constant

namespace Format

open Buffer Machine

/-- Reads something from the front of bytes and leaves the rest. -/
abbrev Parser := StateT (List UInt8) Option

def bytes (n : Nat) : Parser (List UInt8) := fun bs =>
  if n ≤ bs.length then some (bs.take n, bs.drop n) else none

def number (n : Nat) : Parser Nat := return unsigned (← bytes n)

def integer (n : Nat) : Parser Int := return signed (← bytes n)

def times {α : Type} (p : Parser α) : Nat → Parser (List α)
  | 0 => return []
  | n + 1 => do
    let a ← p
    return a :: (← times p n)

def counted {α : Type} (p : Parser α) : Parser (List α) := do
  let n ← number 2
  times p n

/-! ## Constant pools -/

/-- An entry of a constant pool; it refers to others by index. -/
inductive Entry where
  | utf8 (bytes : List UInt8)
  | integer (v : Int)
  | float (bits : Nat)
  | long (v : Int)
  | double (bits : Nat)
  | classRef (name : Nat)
  | string (text : Nat)
  | fieldRef (owner member : Nat)
  | methodRef (owner member : Nat)
  | interfaceMethodRef (owner member : Nat)
  | nameAndType (name desc : Nat)
  | methodHandle (kind reference : Nat)
  | methodType (desc : Nat)
  | invokeDynamic (bootstrap member : Nat)
deriving DecidableEq, Repr

def Entry.isWide : Entry → Bool
  | long _ | double _ => true
  | _ => false

def entryOf : Nat → Parser Entry
  | 1 => do
    let n ← number 2
    return .utf8 (← bytes n)
  | 3 => return .integer (← integer 4)
  | 4 => return .float (← number 4)
  | 5 => return .long (← integer 8)
  | 6 => return .double (← number 8)
  | 7 => return .classRef (← number 2)
  | 8 => return .string (← number 2)
  | 9 => return .fieldRef (← number 2) (← number 2)
  | 10 => return .methodRef (← number 2) (← number 2)
  | 11 => return .interfaceMethodRef (← number 2) (← number 2)
  | 12 => return .nameAndType (← number 2) (← number 2)
  | 15 => return .methodHandle (← number 1) (← number 2)
  | 16 => return .methodType (← number 2)
  | 18 => return .invokeDynamic (← number 2) (← number 2)
  | _ => failure

def entry : Parser Entry := do
  let tag ← number 1
  entryOf tag

/-- Entries for a number of indices.  The index behind a wide entry is empty. -/
def entries : Nat → Parser (List (Option Entry))
  | 0 => return []
  | n + 1 => do
    let e ← entry
    if e.isWide then
      match n with
      | 0 => failure
      | k + 1 => return some e :: none :: (← entries k)
    else return some e :: (← entries n)

abbrev Table := List (Option Entry)

def pool : Parser Table := do
  let count ← number 2
  return none :: (← entries (count - 1))

def Table.at? (t : Table) (i : Nat) : Option Entry := (t[i]?).join

/-- The constant that the entry at an index and those it refers to spell. -/
inductive Table.Means (t : Table) : Nat → Constant → Prop
  | utf8 {i : Nat} {x : Text} (h : t.at? i = some (.utf8 x.modifiedUtf8)) : Means t i (.utf8 x)
  | integer {i : Nat} {v : Int32} (h : t.at? i = some (.integer v.toInt)) : Means t i (.integer v)
  | float {i : Nat} {bits : UInt32} (h : t.at? i = some (.float bits.toNat)) :
      Means t i (.float bits)
  | long {i : Nat} {v : Int64} (h : t.at? i = some (.long v.toInt)) : Means t i (.long v)
  | double {i : Nat} {bits : UInt64} (h : t.at? i = some (.double bits.toNat)) :
      Means t i (.double bits)
  | classRef {i j : Nat} {name : Text} (h : t.at? i = some (.classRef j))
      (hname : Means t j (.utf8 name)) : Means t i (.classRef name)
  | string {i j : Nat} {x : Text} (h : t.at? i = some (.string j)) (htext : Means t j (.utf8 x)) :
      Means t i (.string x)
  | methodType {i j : Nat} {desc : Text} (h : t.at? i = some (.methodType j))
      (hdesc : Means t j (.utf8 desc)) : Means t i (.methodType desc)
  | nameAndType {i j k : Nat} {name desc : Text} (h : t.at? i = some (.nameAndType j k))
      (hname : Means t j (.utf8 name)) (hdesc : Means t k (.utf8 desc)) :
      Means t i (.nameAndType name desc)
  | fieldRef {i j k : Nat} {owner name desc : Text} (h : t.at? i = some (.fieldRef j k))
      (howner : Means t j (.classRef owner)) (hmember : Means t k (.nameAndType name desc)) :
      Means t i (.fieldRef owner name desc)
  | methodRef {i j k : Nat} {owner name desc : Text} (h : t.at? i = some (.methodRef j k))
      (howner : Means t j (.classRef owner)) (hmember : Means t k (.nameAndType name desc)) :
      Means t i (.methodRef owner name desc)
  | interfaceMethodRef {i j k : Nat} {owner name desc : Text}
      (h : t.at? i = some (.interfaceMethodRef j k)) (howner : Means t j (.classRef owner))
      (hmember : Means t k (.nameAndType name desc)) :
      Means t i (.interfaceMethodRef owner name desc)
  | fieldHandle {i j kind : Nat} {owner name desc : Text} {ofInterface : Bool}
      (h : t.at? i = some (.methodHandle kind j)) (hkind : kind ≤ 4)
      (href : Means t j (.fieldRef owner name desc)) :
      Means t i (.methodHandle kind owner name desc ofInterface)
  | methodHandle {i j kind : Nat} {owner name desc : Text} {ofInterface : Bool}
      (h : t.at? i = some (.methodHandle kind j)) (hkind : 4 < kind)
      (href : Means t j (PoolM.methodConstant owner name desc ofInterface)) :
      Means t i (.methodHandle kind owner name desc ofInterface)
  | invokeDynamic {i j n : Nat} {name desc : Text} (h : t.at? i = some (.invokeDynamic n j))
      (hmember : Means t j (.nameAndType name desc)) : Means t i (.invokeDynamic name desc n)

/-! ## The other parts -/

structure AttributeInfo where
  name : Nat
  content : List UInt8
deriving DecidableEq, Repr

def attributeInfo : Parser AttributeInfo := do
  let name ← number 2
  let length ← number 4
  return { name, content := ← bytes length }

structure MemberInfo where
  access : Nat
  name : Nat
  desc : Nat
  attributes : List AttributeInfo
deriving DecidableEq, Repr

def memberInfo : Parser MemberInfo := do
  let access ← number 2
  let name ← number 2
  let desc ← number 2
  return { access, name, desc, attributes := ← counted attributeInfo }

structure HandlerInfo where
  start : Nat
  stop : Nat
  handler : Nat
  caught : Nat
deriving DecidableEq, Repr

def handlerInfo : Parser HandlerInfo := do
  let start ← number 2
  let stop ← number 2
  let handler ← number 2
  return { start, stop, handler, caught := ← number 2 }

structure CodeInfo where
  maxStack : Nat
  maxLocals : Nat
  code : List UInt8
  handlers : List HandlerInfo
  attributes : List AttributeInfo
deriving DecidableEq, Repr

def codeInfo : Parser CodeInfo := do
  let maxStack ← number 2
  let maxLocals ← number 2
  let length ← number 4
  let code ← bytes length
  let handlers ← counted handlerInfo
  return { maxStack, maxLocals, code, handlers, attributes := ← counted attributeInfo }

structure ClassInfo where
  minor : Nat
  major : Nat
  pool : Table
  access : Nat
  thisIndex : Nat
  superIndex : Nat
  interfaces : List Nat
  fields : List MemberInfo
  methods : List MemberInfo
  attributes : List AttributeInfo
deriving DecidableEq, Repr

def classInfo : Parser ClassInfo := do
  let magic ← number 4
  guard (magic = 0xCAFEBABE)
  let minor ← number 2
  let major ← number 2
  let pool ← pool
  let access ← number 2
  let thisIndex ← number 2
  let superIndex ← number 2
  let interfaces ← counted (number 2)
  let fields ← counted memberInfo
  let methods ← counted memberInfo
  return { minor, major, pool, access, thisIndex, superIndex, interfaces, fields, methods,
           attributes := ← counted attributeInfo }

/-! ## Numbers of eight bytes -/

theorem unsigned_bytes64 (v : Int) : (unsigned (bytes64 v) : Int) = v % 0x10000000000000000 := by
  have hsplit : unsigned (bytes64 v) =
      0x100000000 * unsigned (bytes32 (v / 0x100000000)) + unsigned (bytes32 v) := by
    simp only [unsigned, bytes64, bytes32, cons_append, nil_append, foldl_cons,
      foldl_nil]
    omega
  have hhigh := unsigned_bytes32 (v / 0x100000000)
  have hlow := unsigned_bytes32 v
  omega

theorem signed_bytes64 {v : Int} (hl : -0x8000000000000000 ≤ v) (hu : v ≤ 0x7fffffffffffffff) :
    signed (bytes64 v) = v :=
  signed_of_unsigned (n := 0x10000000000000000) (by simp [bytes64, bytes32])
    (by simpa using unsigned_bytes64 v) (by omega) (by omega)

/-! ## Reading what was written -/

/-- A parser takes exactly these bytes from all that begin with them. -/
def Parser.Reads {α : Type} (p : Parser α) (bs : List UInt8) (a : α) : Prop :=
  ∀ rest, p.run (bs ++ rest) = some (a, rest)

section Reads

variable {α β : Type} {p : Parser α} {a : α}

variable {bs : List UInt8} {n v : Nat}

theorem reads_pure (a : α) : (pure a : Parser α).Reads [] a := fun _ => rfl

theorem reads_bind {f : α → Parser β} {b : β} {xs ys : List UInt8} (hp : p.Reads xs a)
    (hf : (f a).Reads ys b) : (p >>= f).Reads (xs ++ ys) b := by
  intro rest
  rw [StateT.run_bind, append_assoc, hp]
  exact hf rest

theorem reads_check {f : α → Parser β} {b : β} {ys : List UInt8} (hp : p.Reads [] a)
    (hf : (f a).Reads ys b) : (p >>= f).Reads ys b :=
  reads_bind hp hf

theorem reads_map {f : α → β} {xs : List UInt8} (hp : p.Reads xs a) :
    (do return f (← p) : Parser β).Reads xs (f a) := by
  have h := reads_bind (f := fun a => pure (f a)) hp (reads_pure (f a))
  rwa [append_nil] at h

theorem reads_bytes (h : bs.length = n) : (bytes n).Reads bs bs := by
  intro rest
  have hle : n ≤ (bs ++ rest).length := by
    simp [h]
  simp [bytes, StateT.run, ← h]

theorem reads_number (h : bs.length = n) (hv : unsigned bs = v) : (number n).Reads bs v :=
  hv ▸ reads_map (reads_bytes h)

theorem reads_number1 (h : v < 256) : (number 1).Reads [low8 v] v :=
  reads_number rfl (unsigned_low8_of h)

theorem reads_number2 (h : v < 65536) : (number 2).Reads (bytes16 v) v :=
  reads_number rfl (unsigned_bytes16_of h)

theorem reads_number4 (h : v < 0x100000000) : (number 4).Reads (bytes32 v) v := by
  refine reads_number rfl ?_
  have := unsigned_bytes32 v
  omega

theorem reads_integer {v : Int} (h : bs.length = n) (hv : signed bs = v) : (integer n).Reads bs v :=
  hv ▸ reads_map (reads_bytes h)

theorem reads_times {γ : Type} {f : γ → α} {enc : γ → List UInt8} {xs : List γ}
    (h : ∀ x ∈ xs, p.Reads (enc x) (f x)) :
    (times p xs.length).Reads (xs.flatMap enc) (xs.map f) := by
  induction xs with
  | nil => exact reads_pure []
  | cons x xs ih =>
    refine reads_bind (h x (by simp)) (reads_map ?_)
    exact ih fun y hy => h y (by simp [hy])

theorem reads_counted {γ : Type} {f : γ → α} {enc : γ → List UInt8} {xs : List γ}
    (hlen : xs.length < 65536) (h : ∀ x ∈ xs, p.Reads (enc x) (f x)) :
    (counted p).Reads (bytes16 xs.length ++ xs.flatMap enc) (xs.map f) :=
  reads_bind (reads_number2 hlen) (reads_times h)

end Reads

/-! ## The constant pool -/

theorem reads_entry (tag : Nat) {bs : List UInt8} {e : Entry} (htag : tag < 256)
    (h : (entryOf tag).Reads bs e) : entry.Reads (low8 tag :: bs) e :=
  reads_bind (reads_number1 htag) h

theorem reads_index {f : Nat → Entry} {i : Nat} (hi : i < 65536) :
    (do return f (← number 2) : Parser Entry).Reads (bytes16 i) (f i) :=
  reads_map (reads_number2 hi)

theorem reads_indices {f : Nat → Nat → Entry} {i j : Nat} (hi : i < 65536) (hj : j < 65536) :
    (do return f (← number 2) (← number 2) : Parser Entry).Reads (bytes16 i ++ bytes16 j)
      (f i j) :=
  reads_bind (reads_number2 hi) (reads_map (reads_number2 hj))

/-- The entry of a constant; it refers to other constants by their indices. -/
def Entry.ofConstant (index : Constant → Nat) : Constant → Entry
  | .utf8 t => .utf8 t.modifiedUtf8
  | .integer v => .integer v.toInt
  | .float bits => .float bits.toNat
  | .long v => .long v.toInt
  | .double bits => .double bits.toNat
  | .classRef name => .classRef (index (.utf8 name))
  | .string t => .string (index (.utf8 t))
  | .fieldRef owner name desc =>
    .fieldRef (index (.classRef owner)) (index (.nameAndType name desc))
  | .methodRef owner name desc =>
    .methodRef (index (.classRef owner)) (index (.nameAndType name desc))
  | .interfaceMethodRef owner name desc =>
    .interfaceMethodRef (index (.classRef owner)) (index (.nameAndType name desc))
  | .nameAndType name desc => .nameAndType (index (.utf8 name)) (index (.utf8 desc))
  | .methodHandle kind owner name desc ofInterface =>
    .methodHandle kind (index (if kind ≤ 4 then .fieldRef owner name desc
      else PoolM.methodConstant owner name desc ofInterface))
  | .methodType desc => .methodType (index (.utf8 desc))
  | .invokeDynamic name desc n => .invokeDynamic n (index (.nameAndType name desc))

theorem Entry.isWide_ofConstant (index : Constant → Nat) (c : Constant) :
    (ofConstant index c).isWide = c.isWide := by
  cases c <;> rfl

theorem Table.means_of_parts {t : Table} {index : Constant → Nat} {k : Nat} {c : Constant}
    (h : t.at? k = some (.ofConstant index c)) (hparts : ∀ d ∈ c.parts, t.Means (index d) d) :
    t.Means k c := by
  cases c with
  | utf8 x => exact .utf8 h
  | integer v => exact .integer h
  | float bits => exact .float h
  | long v => exact .long h
  | double bits => exact .double h
  | classRef name => exact .classRef h (hparts _ mem_cons_self)
  | string x => exact .string h (hparts _ mem_cons_self)
  | methodType desc => exact .methodType h (hparts _ mem_cons_self)
  | nameAndType name desc =>
    exact .nameAndType h (hparts _ mem_cons_self) (hparts _ (by simp [parts]))
  | fieldRef owner name desc =>
    exact .fieldRef h (hparts _ mem_cons_self) (hparts _ (by simp [parts]))
  | methodRef owner name desc =>
    exact .methodRef h (hparts _ mem_cons_self) (hparts _ (by simp [parts]))
  | interfaceMethodRef owner name desc =>
    exact .interfaceMethodRef h (hparts _ mem_cons_self) (hparts _ (by simp [parts]))
  | methodHandle kind owner name desc ofInterface =>
    have href := hparts _ mem_cons_self
    by_cases hkind : kind ≤ 4
    · rw [if_pos hkind] at href
      rw [Entry.ofConstant, if_pos hkind] at h
      exact .fieldHandle h hkind href
    · rw [if_neg hkind] at href
      rw [Entry.ofConstant, if_neg hkind] at h
      exact .methodHandle h (Nat.lt_of_not_le hkind) href
  | invokeDynamic name desc n => exact .invokeDynamic h (hparts _ mem_cons_self)

end Format

namespace Pool

open Format Buffer

def indexOf (p : Pool) (c : Constant) : Nat := (p.index? c).getD 0

variable {counted : Prop} {p : Pool}

theorem Wf.indexOf_eq (hp : p.Wf { counted }) {i : Nat} {c : Constant} (h : p.at? i = some c) :
    p.indexOf c = i := by
  rw [indexOf, (hp.index c i).2 h, Option.getD_some]

theorem Spells.reads (hp : p.Wf { counted }) (hf : p.failure = none)
    (hlong : p.bytes.tooLong = none) {c : Constant} {k : Nat} (hk : p.at? k = some c)
    {chunk : List UInt8} (h : p.Spells c chunk) :
    entry.Reads chunk (.ofConstant p.indexOf c) := by
  have hlt {i : Nat} {d : Constant} (hi : p.at? i = some d) : i < 65536 := hp.at?_lt hf hi
  cases h with
  | utf8 x =>
    have hx := hp.texts hlong k x hk
    have hbytes : textBytes x = bytes16 x.modifiedUtf8.length ++ x.modifiedUtf8 := if_pos hx
    rw [hbytes]
    refine reads_entry 1 (by decide) ?_
    exact reads_bind (reads_number2 (Nat.lt_succ_of_le hx)) (reads_map (reads_bytes rfl))
  | integer v =>
    have hl := v.le_toInt
    have hu := v.toInt_lt
    refine reads_entry 3 (by decide) (reads_map (reads_integer rfl ?_))
    exact Machine.signed_bytes32 (by omega) (by omega)
  | float bits => exact reads_entry 4 (by decide) (reads_map (reads_number4 bits.toNat_lt))
  | long v =>
    have hl := v.le_toInt
    have hu := v.toInt_lt
    refine reads_entry 5 (by decide) (reads_map (reads_integer rfl ?_))
    exact signed_bytes64 (by omega) (by omega)
  | double bits =>
    have hread := unsigned_bytes64 bits.toNat
    have hlt := bits.toNat_lt
    exact reads_entry 6 (by decide) (reads_map (reads_number rfl (by omega)))
  | @classRef name i h =>
    rw [Entry.ofConstant, hp.indexOf_eq h]
    exact reads_entry 7 (by decide) (reads_index (hlt h))
  | @string x i h =>
    rw [Entry.ofConstant, hp.indexOf_eq h]
    exact reads_entry 8 (by decide) (reads_index (hlt h))
  | @methodType desc i h =>
    rw [Entry.ofConstant, hp.indexOf_eq h]
    exact reads_entry 16 (by decide) (reads_index (hlt h))
  | @nameAndType name desc i j h h' =>
    rw [Entry.ofConstant, hp.indexOf_eq h, hp.indexOf_eq h']
    exact reads_entry 12 (by decide) (reads_indices (hlt h) (hlt h'))
  | @fieldRef owner name desc i j h h' =>
    rw [Entry.ofConstant, hp.indexOf_eq h, hp.indexOf_eq h']
    exact reads_entry 9 (by decide) (reads_indices (hlt h) (hlt h'))
  | @methodRef owner name desc i j h h' =>
    rw [Entry.ofConstant, hp.indexOf_eq h, hp.indexOf_eq h']
    exact reads_entry 10 (by decide) (reads_indices (hlt h) (hlt h'))
  | @interfaceMethodRef owner name desc i j h h' =>
    rw [Entry.ofConstant, hp.indexOf_eq h, hp.indexOf_eq h']
    exact reads_entry 11 (by decide) (reads_indices (hlt h) (hlt h'))
  | @fieldHandle kind owner name desc ofInterface i _ hkind h =>
    rw [Entry.ofConstant, if_pos hkind, hp.indexOf_eq h]
    exact reads_entry 15 (by decide)
      (reads_bind (reads_number1 (by omega)) (reads_index (hlt h)))
  | @methodHandle kind owner name desc ofInterface i hkind hmax h =>
    rw [Entry.ofConstant, if_neg (Nat.not_le.2 hkind), hp.indexOf_eq h]
    exact reads_entry 15 (by decide)
      (reads_bind (reads_number1 (by omega)) (reads_index (hlt h)))
  | @invokeDynamic name desc n i hn h =>
    have hcount := hp.bootstrapCount_lt hf
    rw [Entry.ofConstant, hp.indexOf_eq h]
    exact reads_entry 18 (by decide) (reads_indices (by omega) (hlt h))

end Pool

namespace Format

theorem reads_entries_wide {e : Entry} {n : Nat} {xs ys : List UInt8} {t : Table}
    (he : entry.Reads xs e) (hw : e.isWide = true) (ht : (entries n).Reads ys t) :
    (entries (n + 2)).Reads (xs ++ ys) (some e :: none :: t) := by
  rw [entries]
  refine reads_bind he ?_
  simp only [hw, if_true]
  exact reads_map ht

theorem reads_entries_narrow {e : Entry} {n : Nat} {xs ys : List UInt8} {t : Table}
    (he : entry.Reads xs e) (hw : e.isWide = false) (ht : (entries n).Reads ys t) :
    (entries (n + 1)).Reads (xs ++ ys) (some e :: t) := by
  rw [entries]
  refine reads_bind he ?_
  simp only [hw]
  exact reads_map ht

theorem reads_slots {index : Constant → Nat} {cs : List Constant} {chunks : List (List UInt8)}
    (h : Forall₂ (fun c chunk => entry.Reads chunk (.ofConstant index c)) cs chunks) :
    (entries (cs.flatMap slots).length).Reads chunks.flatten
      ((cs.flatMap slots).map (Option.map (.ofConstant index))) := by
  induction h with
  | nil => exact reads_pure []
  | @cons c chunk cs chunks hc _ ih =>
    rw [flatMap_cons, flatten_cons]
    have hwide := Entry.isWide_ofConstant index c
    cases hw : c.isWide with
    | true =>
      have hslots : c.slots = [some c, none] := if_pos hw
      rw [hslots]
      exact reads_entries_wide hc (hwide.trans hw) ih
    | false =>
      have hslots : c.slots = [some c] := if_neg (by simp [hw])
      rw [hslots]
      exact reads_entries_narrow hc (hwide.trans hw) ih

theorem reduceOption_flatMap_slots (cs : List Constant) :
    (cs.flatMap slots).reduceOption = cs := by
  induction cs with
  | nil => rfl
  | cons c cs ih =>
    rw [flatMap_cons, reduceOption_append, reduceOption_slots, ih]
    rfl

end Format

namespace Pool

open Format Buffer

variable {counted : Prop} {p : Pool}

def table (p : Pool) : Table := p.entries.toList.map (Option.map (.ofConstant p.indexOf))

theorem at?_table {i : Nat} {c : Constant} (h : p.at? i = some c) :
    p.table.at? i = some (.ofConstant p.indexOf c) := by
  rw [Table.at?, table, getElem?_map, at?_eq_some.1 h]
  rfl

theorem Wf.reads_entries (hp : p.Wf { counted }) (hf : p.failure = none)
    (hlong : p.bytes.tooLong = none) :
    (Format.entries (p.count - 1)).Reads p.bytes.toList p.table.tail := by
  obtain ⟨cs, hcs⟩ := hp.slots
  obtain ⟨chunks, hspells, hbytes⟩ := hp.spelled
  have hreduce : p.entries.toList.reduceOption = cs := by
    rw [hcs, reduceOption_cons_of_none, reduceOption_flatMap_slots]
  rw [hreduce] at hspells
  have hmem : ∀ c ∈ cs, ∃ k, p.at? k = some c := by
    intro c hc
    have hsome : some c ∈ p.entries.toList := by
      rw [← reduceOption_mem_iff, hreduce]
      exact hc
    obtain ⟨k, hk⟩ := mem_iff_getElem?.1 hsome
    exact ⟨k, at?_eq_some.2 hk⟩
  have hreads : Forall₂ (fun c chunk => entry.Reads chunk (.ofConstant p.indexOf c)) cs
      chunks := by
    refine forall₂_mem hspells fun c hc chunk hchunk => ?_
    obtain ⟨k, hk⟩ := hmem c hc
    exact hchunk.reads hp hf hlong hk
  have hcount : p.count - 1 = (cs.flatMap Constant.slots).length := by
    have hlen := congrArg List.length hcs
    rw [Array.length_toList, length_cons] at hlen
    rw [count, hlen, Nat.add_sub_cancel]
  rw [hbytes, hcount, table, hcs]
  exact reads_slots hreads

theorem Wf.means_table (hp : p.Wf { counted }) {i : Nat} {c : Constant} (h : p.at? i = some c) :
    p.table.Means i c := by
  generalize hrank : c.rank = n
  induction n using Nat.strong_induction_on generalizing i c with
  | _ n ih =>
    refine Table.means_of_parts (at?_table h) fun d hd => ?_
    obtain ⟨j, -, hj⟩ := hp.ordered i c h d hd
    rw [hp.indexOf_eq hj]
    exact ih _ (hrank ▸ rank_lt_of_mem_parts hd) hj rfl

theorem Wf.exists_reads_pool (hp : p.Wf { counted }) (hf : p.failure = none)
    (hlong : p.bytes.tooLong = none) :
    ∃ t : Table, pool.Reads (bytes16 p.count ++ p.bytes.toList) t ∧ t.length = p.count ∧
      ∀ i c, p.at? i = some c → t.Means i c := by
  have hmax : p.count ≤ 0xFFFF := hp.bounded hf
  refine ⟨none :: p.table.tail, ?_, ?_, fun i c h => ?_⟩
  · exact reads_bind (reads_number2 (by omega)) (reads_map (hp.reads_entries hf hlong))
  all_goals
    obtain ⟨cs, hcs⟩ := hp.slots
    have htable : none :: p.table.tail = p.table := by rw [table, hcs]; rfl
    rw [htable]
  · rw [table, length_map, Array.length_toList, count]
  · exact hp.means_table h

end Pool

/-! ## Class files -/

open Buffer Format

theorem Buffer.toList_foldl {α : Type} {f : Buffer → α → Buffer} {enc : α → List UInt8}
    (h : ∀ b a, (f b a).toList = b.toList ++ enc a) (as : List α) (b : Buffer) :
    (as.foldl f b).toList = b.toList ++ as.flatMap enc := by
  induction as generalizing b with
  | nil => simp
  | cons a as ih => rw [foldl_cons, ih, h, flatMap_cons, append_assoc]

@[simp] theorem Buffer.length_toList (b : Buffer) : b.toList.length = b.size := rfl

theorem Buffer.toList_putShort' (b : Buffer) (v : Int) :
    (b.putShort v).toList = b.toList ++ bytes16 v :=
  toList_putShort b v

theorem Buffer.toList_putInt (b : Buffer) (v : Int) :
    (b.putInt v).toList = b.toList ++ bytes32 v :=
  toList_putList b _

theorem Buffer.bytes32_eq (v : Int) : bytes32 v = bytes16 (v / 65536) ++ bytes16 v := by
  simp [bytes32, bytes16, Int.ediv_ediv]

namespace Attribute

def bytes (a : Attribute) : List UInt8 :=
  bytes16 a.nameIndex ++ (bytes32 a.length ++ a.content.toList)

def info (a : Attribute) : AttributeInfo := ⟨a.nameIndex, a.content.toList⟩

/-- An attribute says how long its content is, and its numbers fit their fields. -/
structure Fits (a : Attribute) : Prop where
  name : a.nameIndex < 65536
  length : a.length = a.content.size
  content : a.content.size < 0x100000000

theorem toList_putAll (b : Buffer) (n : Nat) (as : List Attribute) :
    (putAll b n as).toList = b.toList ++ (bytes16 n ++ as.flatMap bytes) := by
  have hput (b : Buffer) (a : Attribute) : (put b a).toList = b.toList ++ a.bytes := by
    simp only [put, bytes, toList_putShort', toList_putInt, toList_append, append_assoc]
  rw [putAll, toList_foldl hput, toList_putShort', append_assoc]

theorem Fits.reads {a : Attribute} (h : a.Fits) : attributeInfo.Reads a.bytes a.info := by
  rw [bytes, h.length]
  exact reads_bind (reads_number2 h.name)
    (reads_bind (reads_number4 h.content) (reads_map (reads_bytes rfl)))

theorem reads_all {as : List Attribute} {n : Nat} (hn : n = as.length) (hlen : as.length < 65536)
    (h : ∀ a ∈ as, a.Fits) :
    (counted attributeInfo).Reads (bytes16 n ++ as.flatMap bytes) (as.map info) := by
  rw [hn]
  exact reads_counted hlen fun a ha => (h a ha).reads

end Attribute

namespace Member

def bytes (m : Member) : List UInt8 :=
  bytes16 m.access ++ (bytes16 m.nameIndex ++ (bytes16 m.descIndex ++
    (bytes16 m.count ++ m.attributes.flatMap Attribute.bytes)))

def info (m : Member) : MemberInfo :=
  ⟨m.access, m.nameIndex, m.descIndex, m.attributes.map Attribute.info⟩

/-- A member says how many attributes it has, and its numbers fit their fields. -/
structure Fits (m : Member) : Prop where
  access : m.access < 65536
  name : m.nameIndex < 65536
  desc : m.descIndex < 65536
  count : m.count = m.attributes.length
  countLimit : m.attributes.length < 65536
  attributes : ∀ a ∈ m.attributes, a.Fits

theorem toList_putAll (b : Buffer) (ms : List Member) :
    (putAll b ms).toList = b.toList ++ (bytes16 ms.length ++ ms.flatMap bytes) := by
  have hput (b : Buffer) (m : Member) : (put b m).toList = b.toList ++ m.bytes := by
    simp only [put, bytes, toList_putShort', Attribute.toList_putAll, append_assoc]
  rw [putAll, toList_foldl hput, toList_putShort', append_assoc]

theorem Fits.reads {m : Member} (h : m.Fits) : memberInfo.Reads m.bytes m.info :=
  reads_bind (reads_number2 h.access) (reads_bind (reads_number2 h.name)
    (reads_bind (reads_number2 h.desc)
      (reads_map (Attribute.reads_all h.count h.countLimit h.attributes))))

theorem reads_all {ms : List Member} (hlen : ms.length < 65536) (h : ∀ m ∈ ms, m.Fits) :
    (counted memberInfo).Reads (bytes16 ms.length ++ ms.flatMap bytes) (ms.map info) :=
  reads_counted hlen fun m hm => (h m hm).reads

end Member

namespace ClassFile

/-- A class file as it is read; the entries of its pool are told apart. -/
def info (f : ClassFile) (t : Table) : ClassInfo where
  minor := (f.version / 65536 % 65536).toNat
  major := (f.version % 65536).toNat
  pool := t
  access := f.access
  thisIndex := f.thisIndex
  superIndex := f.superIndex
  interfaces := f.interfaces
  fields := f.fields.map Member.info
  methods := f.methods.map Member.info
  attributes := f.attributes.map Attribute.info

/-- A class file says how many attributes it has, and its numbers fit their fields. -/
structure Fits (f : ClassFile) : Prop where
  access : f.access < 65536
  thisIndex : f.thisIndex < 65536
  superIndex : f.superIndex < 65536
  interfaceCount : f.interfaces.length < 65536
  interfaces : ∀ i ∈ f.interfaces, i < 65536
  fieldCount : f.fields.length < 65536
  fields : ∀ m ∈ f.fields, m.Fits
  methodCount : f.methods.length < 65536
  methods : ∀ m ∈ f.methods, m.Fits
  attributeCount : f.attributeCount = f.attributes.length
  attributeLimit : f.attributes.length < 65536
  attributes : ∀ a ∈ f.attributes, a.Fits

theorem toList_write (f : ClassFile) (room : Int) :
    (f.write room).toList = bytes32 magic ++ (bytes16 (f.version / 65536) ++ (bytes16 f.version ++
      ((bytes16 f.poolCount ++ f.poolBytes.toList) ++ (bytes16 f.access ++ (bytes16 f.thisIndex ++
        (bytes16 f.superIndex ++
          ((bytes16 f.interfaces.length ++ f.interfaces.flatMap fun i : Nat => bytes16 i) ++
            ((bytes16 f.fields.length ++ f.fields.flatMap Member.bytes) ++
              ((bytes16 f.methods.length ++ f.methods.flatMap Member.bytes) ++
                (bytes16 f.attributeCount ++ f.attributes.flatMap Attribute.bytes)))))))))) := by
  have hindices (b : Buffer) (is : List Nat) :
      (is.foldl (fun b i => b.putShort i) b).toList = b.toList ++ is.flatMap
      fun i : Nat => bytes16 i :=
    toList_foldl (fun b (i : Nat) => toList_putShort' b i) is b
  have hroom : (Buffer.withRoom room).toList = [] := rfl
  simp only [write, Attribute.toList_putAll, Member.toList_putAll, hindices, toList_putShort',
    toList_append, toList_putInt, hroom, bytes32_eq f.version, nil_append, append_assoc]

/-- A reader takes the bytes of a class file whose counts fit and finds its contents. -/
theorem reads_write {f : ClassFile} {t : Table} (room : Int) (h : f.Fits)
    (hpool : pool.Reads (bytes16 f.poolCount ++ f.poolBytes.toList) t) :
    classInfo.Reads (f.write room).toList (f.info t) := by
  rw [toList_write]
  have hversion (v : Int) : (number 2).Reads (bytes16 v) (v % 65536).toNat := by
    refine reads_number rfl ?_
    have := Machine.unsigned_bytes16 v
    omega
  have hinterfaces : (counted (number 2)).Reads
      (bytes16 f.interfaces.length ++ f.interfaces.flatMap fun i : Nat => bytes16 i)
      f.interfaces := by
    have hread := reads_counted h.interfaceCount fun i hi => reads_number2 (h.interfaces i hi)
    rwa [map_id'] at hread
  refine reads_bind (reads_number4 (by decide)) ?_
  have hmagic : (guard (magic = 0xCAFEBABE) : Parser Unit).Reads [] () := reads_pure ()
  refine reads_check hmagic <| reads_bind (hversion _) <| reads_bind (hversion _) <|
    reads_bind hpool <| reads_bind (reads_number2 h.access) <|
    reads_bind (reads_number2 h.thisIndex) <| reads_bind (reads_number2 h.superIndex) <|
    reads_bind hinterfaces <|
    reads_bind (Member.reads_all h.fieldCount h.fields) <|
    reads_bind (Member.reads_all h.methodCount h.methods) <|
    reads_map (Attribute.reads_all h.attributeCount h.attributeLimit h.attributes)

end ClassFile

end ClassAssembler
