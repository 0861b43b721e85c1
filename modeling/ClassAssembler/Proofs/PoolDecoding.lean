import ClassAssembler.Proofs.ClassFormat
import ClassAssembler.Proofs.PoolSharing

/-!
# The constants that a reader finds in a pool

A reader of a constant pool sees entries that refer to each other by index.  `Format.resolve`
follows the references of an entry, but only to entries that were read before it, and only to such
of the kind that the entry needs; what it finds are texts, decoded into UTF-16 units.  Reading the
bytes of a pool and resolving entry after entry leads to the constants of the pool, and at each
index that a request was given stands what was asked for.
-/

namespace ClassAssembler

open List Constant

namespace Format

/-! ## Symbols -/

inductive MemberKind where
  | field
  | method
  | interfaceMethod
deriving DecidableEq, Repr

/-- A constant as a reader knows it, with the texts behind its references. -/
inductive Symbol where
  | utf8 (text : Units)
  | integer (v : Int)
  | float (bits : Nat)
  | long (v : Int)
  | double (bits : Nat)
  | classRef (name : Units)
  | string (text : Units)
  | methodType (desc : Units)
  | nameAndType (name desc : Units)
  | member (kind : MemberKind) (owner name desc : Units)
  | methodHandle (kind : Nat) (target : MemberKind) (owner name desc : Units)
  | invokeDynamic (bootstrap : Nat) (name desc : Units)
deriving DecidableEq, Repr

abbrev Symbols := List (Option Symbol)

namespace Symbols

def at? (s : Symbols) (i : Nat) : Option Symbol := (s[i]?).join

def text? (s : Symbols) (i : Nat) : Option Units :=
  match s.at? i with
  | some (.utf8 t) => some t
  | _ => none

def class? (s : Symbols) (i : Nat) : Option Units :=
  match s.at? i with
  | some (.classRef name) => some name
  | _ => none

def nameAndType? (s : Symbols) (i : Nat) : Option (Units × Units) :=
  match s.at? i with
  | some (.nameAndType name desc) => some (name, desc)
  | _ => none

end Symbols

/-- Whether handles of a kind may refer to members of a kind: kinds one to four to fields, kinds
five to nine to methods. -/
def admits (kind : Nat) : MemberKind → Bool
  | .field => 1 ≤ kind && kind ≤ 4
  | .method | .interfaceMethod => 5 ≤ kind && kind ≤ 9

def resolveMember (s : Symbols) (kind : MemberKind) (owner member : Nat) : Option Symbol := do
  let owner ← s.class? owner
  let (name, desc) ← s.nameAndType? member
  return .member kind owner name desc

def resolve (s : Symbols) : Entry → Option Symbol
  | .utf8 bs => (decodeUnits bs).map .utf8
  | .integer v => some (.integer v)
  | .float bits => some (.float bits)
  | .long v => some (.long v)
  | .double bits => some (.double bits)
  | .classRef name => (s.text? name).map .classRef
  | .string text => (s.text? text).map .string
  | .methodType desc => (s.text? desc).map .methodType
  | .nameAndType name desc => return .nameAndType (← s.text? name) (← s.text? desc)
  | .fieldRef owner member => resolveMember s .field owner member
  | .methodRef owner member => resolveMember s .method owner member
  | .interfaceMethodRef owner member => resolveMember s .interfaceMethod owner member
  | .methodHandle kind reference =>
    match s.at? reference with
    | some (.member target owner name desc) =>
      if admits kind target then some (.methodHandle kind target owner name desc) else none
    | _ => none
  | .invokeDynamic bootstrap member => do
    let (name, desc) ← s.nameAndType? member
    return .invokeDynamic bootstrap name desc

/-- Resolves entries one after another, each with the symbols before it. -/
def resolveFrom (s : Symbols) : Table → Option Symbols
  | [] => some s
  | none :: t => resolveFrom (s ++ [none]) t
  | some e :: t => do
    let x ← resolve s e
    resolveFrom (s ++ [some x]) t

end Format

/-! ## The symbols of constants -/

open Format

def Constant.symbol : Constant → Symbol
  | .utf8 t => .utf8 t.units
  | .integer v => .integer v.toInt
  | .float bits => .float bits.toNat
  | .long v => .long v.toInt
  | .double bits => .double bits.toNat
  | .classRef name => .classRef name.units
  | .string t => .string t.units
  | .methodType desc => .methodType desc.units
  | .nameAndType name desc => .nameAndType name.units desc.units
  | .fieldRef owner name desc => .member .field owner.units name.units desc.units
  | .methodRef owner name desc => .member .method owner.units name.units desc.units
  | .interfaceMethodRef owner name desc =>
    .member .interfaceMethod owner.units name.units desc.units
  | .methodHandle kind owner name desc ofInterface =>
    .methodHandle kind
      (if kind ≤ 4 then .field else if ofInterface then .interfaceMethod else .method)
      owner.units name.units desc.units
  | .invokeDynamic name desc n => .invokeDynamic n name.units desc.units

/-- The constant is no handle, or a handle of a kind that exists. -/
def Constant.Admitted : Constant → Prop
  | .methodHandle kind .. => 1 ≤ kind ∧ kind ≤ 9
  | _ => True

namespace Pool

variable {c : Constant} {i : Nat}

theorem Spells.admitted {p : Pool} {chunk : List UInt8} (h : p.Spells c chunk) : c.Admitted := by
  cases h with
  | fieldHandle hmin hkind => exact ⟨hmin, by omega⟩
  | methodHandle hkind hmax => exact ⟨by omega, hmax⟩
  | _ => trivial

theorem resolve_ofConstant {index : Constant → Nat} {s : Symbols} (hc : c.Admitted)
    (hparts : ∀ d ∈ c.parts, s.at? (index d) = some d.symbol) :
    resolve s (.ofConstant index c) = some c.symbol := by
  have htext {t : Text} (h : utf8 t ∈ c.parts) :
      s.text? (index (.utf8 t)) = some t.units := by
    rw [Symbols.text?, hparts _ h]
    rfl
  have hclass {name : Text} (h : classRef name ∈ c.parts) :
      s.class? (index (.classRef name)) = some name.units := by
    rw [Symbols.class?, hparts _ h]
    rfl
  have hpair {name desc : Text} (h : nameAndType name desc ∈ c.parts) :
      s.nameAndType? (index (.nameAndType name desc)) = some (name.units, desc.units) := by
    rw [Symbols.nameAndType?, hparts _ h]
    rfl
  cases c with
  | utf8 t =>
    rw [Entry.ofConstant, resolve, decodeUnits_modifiedUtf8]
    rfl
  | integer | float | long | double => rfl
  | classRef | string | methodType =>
    rw [Entry.ofConstant, resolve, htext mem_cons_self]
    rfl
  | nameAndType name desc =>
    rw [Entry.ofConstant, resolve, htext mem_cons_self,
      htext (mem_cons_of_mem _ mem_cons_self)]
    rfl
  | fieldRef | methodRef | interfaceMethodRef =>
    rw [Entry.ofConstant, resolve, resolveMember, hclass mem_cons_self,
      hpair (mem_cons_of_mem _ mem_cons_self)]
    rfl
  | methodHandle kind owner name desc ofInterface =>
    have href := hparts _ mem_cons_self
    obtain ⟨hmin, hmax⟩ := hc
    by_cases hkind : kind ≤ 4
    · rw [if_pos hkind] at href
      simp [Entry.ofConstant, resolve, hkind, href, symbol, admits, hmin]
    · rw [if_neg hkind] at href
      have hadmits : 5 ≤ kind := by omega
      cases ofInterface <;>
        simp [PoolM.methodConstant] at href <;>
        simp [Entry.ofConstant, PoolM.methodConstant, resolve, hkind, href, symbol, admits,
          hadmits, hmax]
  | invokeDynamic name desc n =>
    rw [Entry.ofConstant, resolve, hpair mem_cons_self]
    rfl

def symbols (p : Pool) : Symbols := p.entries.toList.map (Option.map symbol)

theorem at?_symbols {p : Pool} (h : p.at? i = some c) : p.symbols.at? i = some c.symbol := by
  rw [Symbols.at?, symbols, getElem?_map, at?_eq_some.1 h]
  rfl

variable {counted : Prop} {p : Pool}

theorem Wf.spells (hp : p.Wf { counted }) (h : p.at? i = some c) : ∃ chunk, p.Spells c chunk := by
  obtain ⟨chunks, hspells, -⟩ := hp.spelled
  have hmem : c ∈ p.entries.toList.reduceOption :=
    reduceOption_mem_iff.2 (mem_iff_getElem?.2 ⟨i, at?_eq_some.1 h⟩)
  obtain ⟨chunk, -, hchunk⟩ := exists_of_forall₂_left hspells hmem
  exact ⟨chunk, hchunk⟩

theorem Wf.admitted (hp : p.Wf { counted }) (h : p.at? i = some c) : c.Admitted := by
  obtain ⟨chunk, hchunk⟩ := hp.spells h
  exact hchunk.admitted

theorem Wf.number_lt (hp : p.Wf { counted }) {n : Nat} {name desc : Text}
    (h : p.at? i = some (.invokeDynamic name desc n)) : n < p.bootstrapCount := by
  obtain ⟨chunk, hchunk⟩ := hp.spells h
  cases hchunk with
  | invokeDynamic hn _ => exact hn

/-- The entries of a pool are resolved from any place on, as what they refer to stands before
them. -/
theorem Wf.resolveFrom_entries (hp : p.Wf { counted }) {before after : List (Option Constant)}
    (hsplit : p.entries.toList = before ++ after) :
    resolveFrom (before.map (Option.map symbol))
      (after.map (Option.map (.ofConstant p.indexOf))) = some p.symbols := by
  induction after generalizing before with
  | nil =>
    rw [append_nil] at hsplit
    rw [symbols, hsplit]
    rfl
  | cons slot after ih =>
    have hnext : p.entries.toList = (before ++ [slot]) ++ after := by
      rw [hsplit, append_assoc, singleton_append]
    have hrest := ih hnext
    rw [map_append] at hrest
    cases slot with
    | none => exact hrest
    | some c =>
      have hat : p.at? before.length = some c := by
        rw [at?_eq_some, hsplit, getElem?_append_right (Nat.le_refl _), Nat.sub_self]
        rfl
      have hknown : ∀ d ∈ c.parts, Symbols.at? (before.map (Option.map symbol))
          (p.indexOf d) = some d.symbol := by
        intro d hd
        obtain ⟨j, hlt, hj⟩ := hp.ordered _ _ hat d hd
        have hbefore : before[j]? = some (some d) := by
          rw [at?_eq_some, hsplit, getElem?_append_left hlt] at hj
          exact hj
        rw [hp.indexOf_eq hj, Symbols.at?, getElem?_map, hbefore]
        rfl
      have hresolve := resolve_ofConstant (hp.admitted hat) hknown
      rw [map_cons, Option.map_some, resolveFrom, hresolve]
      exact hrest

/-- The bytes of a pool are read, from index one on, up to its next free index; and the entries that
are read are resolved to the symbols of the pool. -/
theorem Wf.decodes (hp : p.Wf { counted }) (hf : p.failure = none)
    (hlong : p.bytes.tooLong = none) :
    ∃ t, (Format.entries (p.count - 1)).run p.bytes.toList = some (t, []) ∧
      t.length + 1 = p.count ∧ resolveFrom [none] t = some p.symbols := by
  obtain ⟨cs, hcs⟩ := hp.slots
  have hreads := hp.reads_entries hf hlong []
  rw [append_nil] at hreads
  have htail : p.table.tail = (cs.flatMap Constant.slots).map
      (Option.map (.ofConstant p.indexOf)) := by
    rw [table, hcs]
    rfl
  refine ⟨p.table.tail, hreads, ?_, ?_⟩
  · have hlen := congrArg List.length hcs
    rw [Array.length_toList, length_cons] at hlen
    rw [htail, length_map, count, hlen]
  · rw [htail]
    have hsplit : p.entries.toList = [none] ++ cs.flatMap Constant.slots := hcs
    exact hp.resolveFrom_entries hsplit

end Pool

/-! ## Requests -/

/-- A request for the index of a constant.  The arguments of a call site may be too many to be
counted. -/
inductive Request where
  | constant (r : Registration)
  | callSite (name desc : Text) (method : Handle) (args : List Value)

namespace Request

def run : Request → PoolM Nat
  | constant r => r.run
  | callSite name desc method args => return (← PoolM.dynamicEntry name desc method args).1

def runAll : List Request → PoolM (List Nat)
  | [] => return []
  | r :: rs => do
    let i ← r.run
    return i :: (← runAll rs)

def meaning? : Request → Option Meaning
  | constant r => r.meaning?
  | callSite name desc method args => do
    let c ← (Value.handle method).constant?
    let cs ← args.mapM Value.constant?
    return .callSite name desc c cs

def types : Request → List JavaType
  | constant r => r.types
  | callSite _ _ _ args => args.filterMap Registration.types.typeOf

end Request

/-- What a reader of a pool has to find at an index: the symbol of a constant, or a call site with
the number that the pool keeps for its bootstrap method. -/
def Meaning.FoundAt (p : Pool) (s : Symbols) (i : Nat) : Meaning → Prop
  | .constant c => s.at? i = some c.symbol
  | .callSite name desc method args =>
    ∃ n, s.at? i = some (.invokeDynamic n name.units desc.units) ∧ p.Numbers n method args

theorem Pool.Records.foundAt {p : Pool} {i : Nat} {m : Meaning} (h : p.Records i m) :
    m.FoundAt p p.symbols i := by
  cases m with
  | constant c => exact at?_symbols h
  | callSite name desc method args =>
    obtain ⟨n, hn, hnumbers⟩ := h
    exact ⟨n, at?_symbols hn, hnumbers⟩

namespace Request

theorem returns_run {r : Request} (h : ∀ t ∈ r.types, ∃ name, t.internalName = .ok name) :
    Returns r.run := by
  cases r with
  | constant r => exact Registration.returns_run h
  | callSite name desc method args =>
    exact returns_bind (Registration.returns_dynamicEntry name desc method h) fun _ =>
      returns_pure _

theorem returns_runAll {rs : List Request}
    (h : ∀ r ∈ rs, ∀ t ∈ r.types, ∃ name, t.internalName = .ok name) : Returns (runAll rs) := by
  induction rs with
  | nil => exact returns_pure _
  | cons r rs ih =>
    refine returns_bind (returns_run (h r mem_cons_self)) fun _ => ?_
    exact returns_bind (ih fun r hr => h r (mem_cons_of_mem _ hr)) fun _ => returns_pure _

variable {p q : Pool}

theorem records_run {r : Request} {i : Nat} (hp : p.Wf { counted := False })
    (e : Ends r.run p i q) :
    Pool.Registers 4 p q { counted := False } ∧
      (q.failure = none → ∃ m, r.meaning? = some m ∧ q.Records i m) := by
  cases r with
  | constant r => exact Registration.records_run hp e
  | callSite name desc method args =>
    obtain ⟨⟨j, c⟩, _, he, h⟩ := e.bind
    obtain ⟨rfl, rfl⟩ := h.pure
    obtain ⟨hreg, n, rfl, hat, hnumbers⟩ := PoolM.numbers_dynamicEntry hp False.elim he
    refine ⟨hreg, fun hq => ?_⟩
    obtain ⟨hkind, cs, hcs, hn⟩ := hnumbers hq
    refine ⟨.callSite name desc (PoolM.handleConstant method) cs, ?_, n, hat, hn⟩
    simp [meaning?, Value.constant?, hkind, Registration.mapM_constant? hcs]

theorem records_runAll {rs : List Request} {is : List Nat} (hp : p.Wf { counted := False })
    (e : Ends (runAll rs) p is q) :
    Pool.Registers 4 p q { counted := False } ∧ (q.failure = none →
      Forall₂ (fun r i => ∃ m, r.meaning? = some m ∧ q.Records i m) rs is) := by
  induction rs generalizing p is with
  | nil =>
    obtain ⟨rfl, rfl⟩ := e.pure
    exact ⟨.refl hp, fun _ => .nil⟩
  | cons r rs ih =>
    simp only [runAll, ends_bind, ends_pure] at e
    obtain ⟨i, p₁, h₁, is', p₂, h₂, rfl, rfl⟩ := e
    obtain ⟨hreg, hr⟩ := records_run hp h₁
    obtain ⟨hreg', hrs⟩ := ih hreg.wf h₂
    refine ⟨hreg.trans hreg', fun hq => .cons ?_ (hrs hq)⟩
    obtain ⟨m, hm, hrecord⟩ := hr (hreg'.extend.no_failure hq)
    exact ⟨m, hm, hrecord.mono hreg'.extend⟩

/-- Requests of any number give indices unless one of them names a type without a name.  If then no
failure is recorded and no text was too long, the bytes of the pool are a sequence of entries from
index one up to the next free index, which is at most 65535, with nothing left over.  Every entry
refers only to entries before it, and to such of the kind it needs; following the references gives
the symbol of the constant that the pool has at each index, and at the index of each request what
was asked for. -/
theorem decodes_of_runAll (rs : List Request) :
    (∃ is p, (runAll rs).run {} = .ok (is, p) ∧
      (p.failure = none → p.bytes.tooLong = none →
        p.count ≤ 65535 ∧ ∃ t s,
          (Format.entries (p.count - 1)).run p.bytes.toList = some (t, []) ∧
          t.length + 1 = p.count ∧ resolveFrom [none] t = some s ∧
          s = p.entries.toList.map (Option.map symbol) ∧
          Forall₂ (fun r i => ∃ m, r.meaning? = some m ∧ m.FoundAt p s i) rs is)) ∨
    ∃ r ∈ rs, ∃ t ∈ r.types, ∀ name, t.internalName ≠ .ok name := by
  by_cases hnamed : ∀ r ∈ rs, ∀ t ∈ r.types, ∃ name, t.internalName = .ok name
  · apply Or.inl
    obtain ⟨is, p, e⟩ := returns_runAll hnamed {}
    refine ⟨is, p, e, fun hf hlong => ?_⟩
    obtain ⟨hreg, hrecords⟩ := records_runAll Pool.wf_empty.uncounted e
    have hcount : p.count ≤ 65535 := hreg.wf.bounded hf
    obtain ⟨t, hread, hlength, hresolve⟩ := hreg.wf.decodes hf hlong
    refine ⟨hcount, t, p.symbols, hread, hlength, hresolve, rfl, (hrecords hf).imp ?_⟩
    rintro r i ⟨m, hm, hrecord⟩
    exact ⟨m, hm, hrecord.foundAt⟩
  · apply Or.inr
    simpa only [not_forall, exists_prop, not_exists] using hnamed

end Request

end ClassAssembler
