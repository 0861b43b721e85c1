import ClassAssembler.Proofs.PoolCallSites

/-!
# Shared constants

Constants are registered one after another, in any order and any number.  As long as no failure is
recorded, two registrations give the same index exactly when they mean the same constant, and an
index keeps its meaning in every later pool.
-/

namespace ClassAssembler

open List

inductive Registration where
  | utf8 (t : Text)
  | classRef (name : Text)
  | string (t : Text)
  | methodType (desc : Text)
  | nameAndType (name desc : Text)
  | field (owner name desc : Text)
  | method (owner name desc : Text) (ofInterface : Bool)
  | handle (h : Handle)
  | dynamic (name desc : Text) (method : Handle) (args : List Value) (short : args.length < 65536)
  | integer (v : Int32)
  | float (bits : UInt32)
  | long (v : Int64)
  | double (bits : UInt64)
  | value (v : Value)

/-- What an index stands for: a constant, or a call site with its bootstrap method. -/
inductive Meaning where
  | constant (c : Constant)
  | callSite (name desc : Text) (method : Constant) (args : List Constant)
deriving DecidableEq

namespace Registration

def run : Registration → PoolM Nat
  | utf8 t => PoolM.utf8 t
  | classRef name => PoolM.classRef name
  | string t => PoolM.string t
  | methodType desc => PoolM.methodType desc
  | nameAndType name desc => PoolM.nameAndType name desc
  | field owner name desc => PoolM.fieldRef owner name desc
  | method owner name desc ofInterface => PoolM.methodRef owner name desc ofInterface
  | handle h => PoolM.methodHandle h
  | dynamic name desc m args _ => return (← PoolM.dynamicEntry name desc m args).1
  | integer v => PoolM.integer v
  | float bits => PoolM.float bits
  | long v => PoolM.long v
  | double bits => PoolM.double bits
  | value v => PoolM.value v

def runAll : List Registration → PoolM (List Nat)
  | [] => return []
  | r :: rs => do
    let i ← r.run
    return i :: (← runAll rs)

def meaning? : Registration → Option Meaning
  | utf8 t => some (.constant (.utf8 t))
  | classRef name => some (.constant (.classRef name))
  | string t => some (.constant (.string t))
  | methodType desc => some (.constant (.methodType desc))
  | nameAndType name desc => some (.constant (.nameAndType name desc))
  | field owner name desc => some (.constant (.fieldRef owner name desc))
  | method owner name desc ofInterface =>
    some (.constant (if ofInterface then .interfaceMethodRef owner name desc
      else .methodRef owner name desc))
  | handle h => (Value.handle h).constant?.map .constant
  | dynamic name desc m args _ => do
    let c ← (Value.handle m).constant?
    let cs ← args.mapM Value.constant?
    return .callSite name desc c cs
  | integer v => some (.constant (.integer v))
  | float bits => some (.constant (.float bits))
  | long v => some (.constant (.long v))
  | double bits => some (.constant (.double bits))
  | value v => v.constant?.map .constant

def types : Registration → List JavaType
  | dynamic _ _ _ args _ => args.filterMap typeOf
  | value v => (typeOf v).toList
  | _ => []
where
  typeOf : Value → Option JavaType
    | .type t => some t
    | _ => none

end Registration

/-- What stands at an index of a pool, with the number that is kept for the bootstrap method of a
call site. -/
def Pool.Records (p : Pool) (i : Nat) : Meaning → Prop
  | .constant c => p.at? i = some c
  | .callSite name desc method args =>
    ∃ n, p.at? i = some (.invokeDynamic name desc n) ∧ p.Numbers n method args

def Pool.Denotes (p : Pool) (i : Nat) : Meaning → Prop
  | .constant c => p.at? i = some c ∧ ∀ name desc n, c ≠ .invokeDynamic name desc n
  | .callSite name desc method args =>
    ∃ n, p.at? i = some (.invokeDynamic name desc n) ∧ p.Site n method args

namespace Pool

variable {m : Meaning} {i : Nat} {p : Pool}

theorem Records.mono {q : Pool} (h : p.Extends q) (hm : p.Records i m) : q.Records i m := by
  cases m with
  | constant c => exact h.at? hm
  | callSite name desc method args =>
    obtain ⟨n, hn, hnumbers⟩ := hm
    exact ⟨n, h.at? hn, hnumbers.mono h⟩

theorem Denotes.mono {q : Pool} (h : p.Extends q) (hm : p.Denotes i m) : q.Denotes i m := by
  cases m with
  | constant c => exact ⟨h.at? hm.1, hm.2⟩
  | callSite name desc method args =>
    obtain ⟨n, hn, hsite⟩ := hm
    exact ⟨n, h.at? hn, hsite.mono h⟩

theorem Denotes.functional {m' : Meaning} (h : p.Denotes i m) (h' : p.Denotes i m') : m = m' := by
  cases m with
  | constant c =>
    cases m' with
    | constant c' => rw [Option.some.inj (h.1.symm.trans h'.1)]
    | callSite name desc method args =>
      obtain ⟨n, hn, -⟩ := h'
      exact absurd (Option.some.inj (h.1.symm.trans hn)) (h.2 name desc n)
  | callSite name desc method args =>
    obtain ⟨n, hn, hsite⟩ := h
    cases m' with
    | constant c => exact absurd (Option.some.inj (h'.1.symm.trans hn)) (h'.2 name desc n)
    | callSite name' desc' method' args' =>
      obtain ⟨n', hn', hsite'⟩ := h'
      cases hn.symm.trans hn'
      obtain ⟨rfl, rfl⟩ := hsite.functional hsite'
      rfl

theorem Denotes.injective (hp : p.Wf) {j : Nat} (h : p.Denotes i m) (h' : p.Denotes j m) :
    i = j := by
  cases m with
  | constant c => exact hp.index_unique h.1 h'.1
  | callSite name desc method args =>
    obtain ⟨n, hn, hsite⟩ := h
    obtain ⟨n', hn', hsite'⟩ := h'
    rw [hsite.injective hp hsite'] at hn
    exact hp.index_unique hn hn'

end Pool

namespace Registration

open PoolM

variable {rs : List Registration} {p q : Pool} {r : Registration} {v : Value}

/-! ## One registration -/

theorem constant?_ne_dynamic {c : Constant} (h : v.constant? = some c) (name desc : Text)
    (n : Nat) : c ≠ .invokeDynamic name desc n := by
  rintro rfl
  cases v with
  | type t =>
    obtain ⟨sort, d⟩ := t
    cases sort <;> simp [Value.constant?] at h
  | handle h' => simp [Value.constant?, handleConstant] at h
  | _ => simp [Value.constant?] at h

theorem mapM_constant? {vs : List Value} {cs : List Constant}
    (h : List.Forall₂ (fun v c => v.constant? = some c) vs cs) :
    vs.mapM Value.constant? = some cs := by
  induction h with
  | nil => rfl
  | cons hv _ ih => simp [mapM_cons, hv, ih]

theorem length_mapM {vs : List Value} {cs : List Constant} (h : vs.mapM Value.constant? = some cs) :
    vs.length = cs.length := by
  induction vs generalizing cs with
  | nil =>
    cases h
    rfl
  | cons v vs ih =>
    simp only [mapM_cons, Option.bind_eq_bind, Option.bind_eq_some_iff, Option.pure_def,
      Option.some.injEq] at h
    obtain ⟨c, -, cs', hcs, rfl⟩ := h
    simp [ih hcs]

theorem meaning?_ne_dynamic {c : Constant} (h : r.meaning? = some (.constant c)) (name desc : Text)
    (n : Nat) : c ≠ .invokeDynamic name desc n := by
  cases r with
  | handle | value =>
    obtain ⟨d, hd, hc⟩ := Option.map_eq_some_iff.1 h
    cases hc
    exact constant?_ne_dynamic hd name desc n
  | dynamic => simp [meaning?, Option.bind_eq_some_iff] at h
  | method owner name' desc' ofInterface =>
    cases h
    cases ofInterface <;> simp
  | _ =>
    cases h
    simp

theorem length_lt_of_meaning? {name desc : Text} {method : Constant} {args : List Constant}
    (h : r.meaning? = some (.callSite name desc method args)) : args.length < 65536 := by
  cases r with
  | dynamic _ _ m vs short =>
    simp only [meaning?, Option.bind_eq_bind, Option.bind_eq_some_iff, Option.pure_def,
      Option.some.injEq] at h
    obtain ⟨c, -, cs, hcs, hsite⟩ := h
    cases hsite
    rwa [← length_mapM hcs]
  | handle | value =>
    obtain ⟨d, -, hc⟩ := Option.map_eq_some_iff.1 h
    cases hc
  | _ => cases h

theorem records_run {counted : Prop} {i : Nat} (hp : p.Wf { counted }) (e : Ends r.run p i q) :
    Pool.Registers 4 p q { counted } ∧
      (q.failure = none → ∃ m, r.meaning? = some m ∧ q.Records i m) := by
  have hconstant {c : Constant} {x : PoolM Nat} (hx : Interns c x) (he : Ends x p i q)
      (hr : r.meaning? = some (.constant c)) : Pool.Registers 4 p q { counted } ∧
        (q.failure = none → ∃ m, r.meaning? = some m ∧ q.Records i m) := by
    obtain ⟨hreg, hat⟩ := hx p i q hp he
    exact ⟨hreg.mono (Nat.succ_le_succ c.rank_le), fun _ => ⟨_, hr, hat⟩⟩
  cases r with
  | utf8 t => exact hconstant (interns_utf8 t) e rfl
  | classRef name => exact hconstant (interns_classRef name) e rfl
  | string t => exact hconstant (interns_string t) e rfl
  | methodType desc => exact hconstant (interns_methodType desc) e rfl
  | nameAndType name desc => exact hconstant (interns_nameAndType name desc) e rfl
  | field owner name desc => exact hconstant (interns_fieldRef owner name desc) e rfl
  | method owner name desc ofInterface =>
    exact hconstant (interns_methodRef owner name desc ofInterface) e rfl
  | integer v => exact hconstant (interns_integer v) e rfl
  | float bits => exact hconstant (interns_float bits) e rfl
  | long v => exact hconstant (interns_long v) e rfl
  | double bits => exact hconstant (interns_double bits) e rfl
  | handle h =>
    obtain ⟨⟨j, c⟩, _, he, h'⟩ := e.bind
    obtain ⟨rfl, rfl⟩ := h'.pure
    obtain ⟨hreg, hat, -, hc⟩ := ends_handleEntry hp he
    refine ⟨hreg, fun hq => ?_⟩
    obtain ⟨hkind, rfl⟩ := hc hq
    exact ⟨.constant (handleConstant h), by simp [meaning?, Value.constant?, hkind], hat⟩
  | value v =>
    obtain ⟨hreg, hv⟩ := ends_value hp e
    refine ⟨hreg, fun hq => ?_⟩
    obtain ⟨c, hc, hat⟩ := hv hq
    exact ⟨.constant c, by simp [meaning?, hc], hat⟩
  | dynamic name desc m args short =>
    obtain ⟨⟨j, c⟩, _, he, h'⟩ := e.bind
    obtain ⟨rfl, rfl⟩ := h'.pure
    obtain ⟨hreg, n, rfl, hat, hnumbers⟩ := numbers_dynamicEntry hp (fun _ => short) he
    refine ⟨hreg, fun hq => ?_⟩
    obtain ⟨hkind, cs, hcs, hn⟩ := hnumbers hq
    refine ⟨.callSite name desc (handleConstant m) cs, ?_, n, hat, hn⟩
    simp [meaning?, Value.constant?, hkind, mapM_constant? hcs]

theorem ends_run {i : Nat} (hp : p.Wf) (e : Ends r.run p i q) :
    Pool.Registers 4 p q ∧
      (q.failure = none → ∃ m, r.meaning? = some m ∧ q.Denotes i m) := by
  obtain ⟨hreg, hrecords⟩ := records_run hp e
  refine ⟨hreg, fun hq => ?_⟩
  obtain ⟨m, hm, hrecord⟩ := hrecords hq
  refine ⟨m, hm, ?_⟩
  cases m with
  | constant c => exact ⟨hrecord, meaning?_ne_dynamic hm⟩
  | callSite name desc method args =>
    obtain ⟨n, hn, hnumbers⟩ := hrecord
    exact ⟨n, hn, hnumbers.site hreg.wf hq (length_lt_of_meaning? hm)⟩

/-! ## Registrations always end -/

theorem returns_fail (cause : Cause) (op : String) (args : List Value) :
    Returns (fail cause op args) :=
  returns_pool_modify _

theorem returns_intern (c : Constant) {write : PoolM Unit} (h : Returns write) :
    Returns (intern c write) := by
  refine returns_bind (returns_bind returns_pool_get fun _ => returns_pure _) fun i => ?_
  cases i with
  | some i => exact returns_pure i
  | none =>
    refine returns_bind h fun _ => ?_
    refine returns_bind returns_pool_get fun _ => returns_bind (returns_pool_modify _) fun _ =>
      returns_bind returns_pool_get fun _ => ?_
    split
    · exact returns_bind (returns_fail _ _ _) fun _ => returns_pure _
    · exact returns_pure _

theorem returns_emit (f : Buffer → Buffer) : Returns (emit f) := returns_pool_modify _

theorem returns_utf8 (t : Text) : Returns (PoolM.utf8 t) := returns_intern _ (returns_emit _)

theorem returns_classRef (name : Text) : Returns (PoolM.classRef name) :=
  returns_intern _ (returns_bind (returns_utf8 _) fun _ => returns_emit _)

theorem returns_nameAndType (name desc : Text) : Returns (PoolM.nameAndType name desc) :=
  returns_intern _ (returns_bind (returns_utf8 _) fun _ =>
    returns_bind (returns_utf8 _) fun _ => returns_emit _)

theorem returns_emitMember (tag : Nat) (owner name desc : Text) :
    Returns (emitMember tag owner name desc) :=
  returns_bind (returns_classRef _) fun _ =>
    returns_bind (returns_nameAndType _ _) fun _ => returns_emit _

theorem returns_handleEntry (h : Handle) : Returns (handleEntry h) := by
  refine returns_bind ?_ fun h' => returns_bind (returns_intern _ ?_) fun _ => returns_pure _
  · unfold admitHandle
    split
    · exact returns_bind (returns_fail _ _ _) fun _ => returns_pure _
    · exact returns_pure _
  · dsimp only
    split <;> exact returns_bind (returns_intern _ (returns_emitMember _ _ _ _)) fun _ =>
      returns_emit _

theorem returns_valueEntry (h : ∀ t ∈ types.typeOf v, ∃ name, t.internalName = .ok name) :
    Returns (valueEntry v) := by
  have hmap {x : PoolM Nat} (c : Constant) (hx : Returns x) :
      Returns (do return some (← x, c) : PoolM (Option (Nat × Constant))) :=
    returns_bind hx fun _ => returns_pure _
  have hwhole (n : Int32) : Returns (PoolM.integer n) := returns_intern _ (returns_emit _)
  have hclass (name : Text) := hmap (.classRef name) (returns_classRef name)
  cases v with
  | int32 v => exact hmap _ (hwhole _)
  | int v => exact hmap _ (hwhole _)
  | int8 v => exact hmap _ (hwhole _)
  | int16 v => exact hmap _ (hwhole _)
  | char v => exact hmap _ (hwhole _)
  | bool v => exact hmap _ (hwhole _)
  | float32 bits => exact hmap _ (returns_intern _ (returns_emit _))
  | int64 v => exact hmap _ (returns_intern _ (returns_emit _))
  | float64 bits => exact hmap _ (returns_intern _ (returns_emit _))
  | string t =>
    exact hmap _ (returns_intern _ (returns_bind (returns_utf8 _) fun _ => returns_emit _))
  | type t =>
    obtain ⟨name, hname⟩ := h t rfl
    obtain ⟨sort, desc⟩ := t
    cases sort with
    | object =>
      refine returns_bind (fun p => ⟨name, p, ends_checked.2 ⟨hname, rfl⟩⟩) fun _ => hclass _
    | method =>
      exact hmap _ (returns_intern _ (returns_bind (returns_utf8 _) fun _ => returns_emit _))
    | _ => exact hclass _
  | handle handle => exact returns_bind (returns_handleEntry handle) fun _ => returns_pure _
  | _ => exact returns_bind (returns_fail _ _ _) fun _ => returns_pure _

theorem returns_value (h : ∀ t ∈ types.typeOf v, ∃ name, t.internalName = .ok name) :
    Returns (PoolM.value v) := by
  refine returns_bind (returns_valueEntry h) fun o => ?_
  cases o <;> exact returns_pure _

theorem returns_values {vs : List Value}
    (h : ∀ t ∈ vs.filterMap types.typeOf, ∃ name, t.internalName = .ok name) :
    Returns (values vs) := by
  induction vs with
  | nil => exact returns_pure _
  | cons v vs ih =>
    simp only [mem_filterMap, mem_cons, forall_exists_index, and_imp] at h ih
    refine returns_bind (returns_value fun t ht => h t v (.inl rfl) ht) fun _ =>
      returns_bind (ih fun t w hw ht => h t w (.inr hw) ht) fun _ => returns_pure _

theorem returns_dynamicEntry (name desc : Text) (m : Handle) {args : List Value}
    (h : ∀ t ∈ args.filterMap types.typeOf, ∃ name, t.internalName = .ok name) :
    Returns (dynamicEntry name desc m args) := by
  refine returns_bind (returns_bind (returns_bind (returns_handleEntry m) fun _ => returns_pure _)
    fun _ => returns_bind (returns_values h) fun _ => returns_bind returns_pool_get fun p => ?_)
      fun _ => returns_bind (returns_intern _ (returns_bind (returns_nameAndType _ _) fun _ =>
        returns_emit _)) fun _ => returns_pure _
  refine returns_bind (returns_pool_modify _) fun _ => returns_bind returns_pool_get fun _ => ?_
  split
  · exact returns_bind (returns_pool_modify _) fun _ => returns_pure _
  · exact returns_bind returns_pool_get fun _ => returns_bind (returns_pool_modify _) fun _ =>
      returns_pure _

theorem returns_run (h : ∀ t ∈ r.types, ∃ name, t.internalName = .ok name) : Returns r.run := by
  have htext {c : Constant} {tag : Int} (t : Text) : Returns (intern c (do
      let i ← PoolM.utf8 t
      emit fun b => b.putTagged tag i)) :=
    returns_intern _ (returns_bind (returns_utf8 _) fun _ => returns_emit _)
  cases r with
  | utf8 t => exact returns_utf8 t
  | classRef name => exact returns_classRef name
  | string t => exact htext t
  | methodType desc => exact htext desc
  | nameAndType name desc => exact returns_nameAndType name desc
  | field owner name desc => exact returns_intern _ (returns_emitMember _ _ _ _)
  | method owner name desc ofInterface => exact returns_intern _ (returns_emitMember _ _ _ _)
  | handle handle => exact returns_bind (returns_handleEntry handle) fun _ => returns_pure _
  | integer v => exact returns_intern _ (returns_emit _)
  | float bits => exact returns_intern _ (returns_emit _)
  | long v => exact returns_intern _ (returns_emit _)
  | double bits => exact returns_intern _ (returns_emit _)
  | value v => exact returns_value fun t ht => h t (by simpa [types] using ht)
  | dynamic name desc m args short =>
    exact returns_bind (returns_dynamicEntry name desc m h) fun _ => returns_pure _

theorem returns_runAll (h : ∀ r ∈ rs, ∀ t ∈ r.types, ∃ name, t.internalName = .ok name) :
    Returns (runAll rs) := by
  induction rs with
  | nil => exact returns_pure _
  | cons r rs ih =>
    refine returns_bind (returns_run (h r mem_cons_self)) fun _ => returns_bind (ih fun r hr =>
      h r (mem_cons_of_mem _ hr)) fun _ => returns_pure _

/-! ## Sequences of registrations -/

theorem ends_runAll {is : List Nat} (hp : p.Wf) (e : Ends (runAll rs) p is q) :
    Pool.Registers 4 p q ∧ (q.failure = none →
      List.Forall₂ (fun r i => ∃ m, r.meaning? = some m ∧ q.Denotes i m) rs is) := by
  induction rs generalizing p is with
  | nil =>
    obtain ⟨rfl, rfl⟩ := e.pure
    exact ⟨.refl hp, fun _ => .nil⟩
  | cons r rs ih =>
    simp only [runAll, ends_bind, ends_pure] at e
    obtain ⟨i, p₁, h₁, is', p₂, h₂, rfl, rfl⟩ := e
    obtain ⟨hreg, hr⟩ := ends_run hp h₁
    obtain ⟨hreg', hrs⟩ := ih hreg.wf h₂
    refine ⟨hreg.trans hreg', fun hq => .cons ?_ (hrs hq)⟩
    obtain ⟨m, hm, hd⟩ := hr (hreg'.extend.no_failure hq)
    exact ⟨m, hm, hd.mono hreg'.extend⟩

theorem ends_runAll_append {rs' : List Registration} {is : List Nat}
    (e : Ends (runAll (rs ++ rs')) p is q) : ∃ r, Ends (runAll rs) p (is.take rs.length) r ∧
      Ends (runAll rs') r (is.drop rs.length) q := by
  induction rs generalizing p is with
  | nil => exact ⟨p, ends_pure.2 ⟨rfl, rfl⟩, e⟩
  | cons r rs ih =>
    simp only [cons_append, runAll, ends_bind, ends_pure] at e
    obtain ⟨i, p₁, h₁, is', p₂, h₂, rfl, rfl⟩ := e
    obtain ⟨r', h, h'⟩ := ih h₂
    refine ⟨r', ?_, h'⟩
    simp only [runAll, ends_bind, ends_pure]
    exact ⟨i, p₁, h₁, _, _, h, rfl, rfl⟩

end Registration

end ClassAssembler
