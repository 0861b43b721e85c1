import ClassAssembler.Proofs.PoolGrowth
import Mathlib.Algebra.Order.Ring.Int

/-!
# The entries that registrations give

What each function that works on a pool does to it.  A function that gives an index leaves the
constant at that index, with the constants it refers to; a value is registered as the constant it
stands for; a dynamic call site refers to a bootstrap method whose words can be read back from the
bytes of the pool.
-/

namespace ClassAssembler

open Buffer

theorem JavaType.internalName_ofName (name : Text) (h : name.head? ≠ some bracket) :
    (ofName name).sort = .object ∧ (ofName name).internalName = .ok name := by
  have hof : ofName name = ⟨.object, [classMark] ++ name ++ [semicolon]⟩ := if_neg h
  have hfrom : (1 : Int) ≤ (name.length : Int) + 1 := by omega
  rw [hof]
  simp [internalName, Text.slice, hfrom]

theorem Constant.rank_le (c : Constant) : c.rank ≤ 3 := by
  cases c <;> simp [Constant.rank]

namespace PoolM

open Pool

variable {c : Constant} {p q : Pool} {P : Pool → Prop}

/-! ## Interning -/

@[simp] theorem ends_emit {f : Buffer → Buffer} {u : Unit} :
    Ends (emit f) p u q ↔ { p with bytes := f p.bytes } = q := by
  simp [emit]

theorem ends_register {i : Nat} (h : Ends (register c) p i q) :
    i = p.entries.size ∧
      (q = p.enter c ∧ (p.enter c).entries.size ≤ maxCount ∨
        q = (p.enter c).recordFailure ⟨.poolTooLarge, "ConstantPool", []⟩) := by
  simp only [register, ends_bind, ends_pool_get, ends_pool_modify] at h
  obtain ⟨_, _, ⟨rfl, rfl⟩, _, _, rfl, _, _, ⟨rfl, rfl⟩, h⟩ := h
  change Ends (if maxCount < (p.enter c).entries.size then _ else _) (p.enter c) i q at h
  split at h
  · simp only [ends_bind, ends_fail, ends_pure] at h
    obtain ⟨_, _, rfl, rfl, rfl⟩ := h
    exact ⟨rfl, .inr rfl⟩
  next hsize =>
    obtain ⟨rfl, rfl⟩ := h.pure
    exact ⟨rfl, .inl ⟨rfl, Nat.le_of_not_lt hsize⟩⟩

/-- From every pool with a property on, a computation writes a constant behind the constants it
refers to. -/
def Writes (P : Pool → Prop) (c : Constant) (write : PoolM Unit) : Prop :=
  ∀ ⦃slack : Slack⦄ p q, p.Wf slack → P p → Ends write p () q →
    ∃ r b chunk, Registers c.rank p r slack ∧
    q = { r with bytes := b } ∧ b.toList = r.bytes.toList ++ chunk ∧ r.Spells c chunk ∧
      (b.tooLong = none → r.bytes.tooLong = none ∧
        ∀ t, c = .utf8 t → t.modifiedUtf8.length ≤ textLimit)

def Interns (c : Constant) (x : PoolM Nat) : Prop :=
  ∀ ⦃slack : Slack⦄ p i q, p.Wf slack → Ends x p i q →
    Registers (c.rank + 1) p q slack ∧ q.at? i = some c

theorem registers_intern {write : PoolM Unit} (hwrite : Writes P c write) {slack : Slack} {i : Nat}
    (hp : p.Wf slack) (hP : P p) (h : Ends (intern c write) p i q) :
    Registers (c.rank + 1) p q slack ∧ q.at? i = some c := by
  simp only [intern, index?, ends_bind, ends_pool_get, ends_pure] at h
  obtain ⟨_, _, ⟨_, _, ⟨rfl, rfl⟩, rfl, rfl⟩, h⟩ := h
  split at h
  next j hj =>
    obtain ⟨rfl, rfl⟩ := h.pure
    exact ⟨.refl hp, (hp.index _ _).1 hj⟩
  next hc =>
    obtain ⟨_, q', hq', h⟩ := h.bind
    obtain ⟨r, b, chunk, hr, rfl, hb, hs, hlong⟩ := hwrite p q' hp hP hq'
    -- the parts of a constant have a smaller rank, so writing them does not enter it
    have hrc : r.index? c = none := by
      by_contra hne
      obtain ⟨j, hj⟩ := Option.ne_none_iff_exists'.1 hne
      rcases hr.rank c j ((hr.wf.index _ _).1 hj) with hpj | hlt
      · rw [← hp.index, hc] at hpj
        cases hpj
      · exact Nat.lt_irrefl _ hlt
    have hranks : ∀ d i, (({ r with bytes := b } : Pool).enter c).at? i = some d →
        p.at? i = some d ∨ d.rank < c.rank + 1 := by
      intro d i hd
      rw [at?_enter] at hd
      split at hd
      · cases hd
        exact .inr (Nat.lt_succ_self _)
      · exact (hr.rank d i hd).imp_right Nat.lt_succ_of_lt
    have hentered : (({ r with bytes := b } : Pool).enter c).at? r.entries.size = some c := by
      rw [at?_enter]
      simp
    obtain ⟨rfl, ⟨rfl, hsize⟩ | rfl⟩ := ends_register h
    · obtain ⟨hwf, hext⟩ := hr.wf.enter hrc hb hs hlong (.inl hsize)
      exact ⟨⟨hwf, hr.extend.trans hext, hranks⟩, hentered⟩
    · -- a pool that is too large is well formed because the failure is recorded
      have hswap (f : Failure) : (({ r with bytes := b } : Pool).enter c).recordFailure f =
          { r.recordFailure f with bytes := b }.enter c := by
        obtain ⟨_, _, _, _, _, _ | _⟩ := r <;> rfl
      have hfail := extends_recordFailure r ⟨.poolTooLarge, "ConstantPool", []⟩
      have hne := recordFailure_ne_none r ⟨.poolTooLarge, "ConstantPool", []⟩
      have hsame (f : Failure) : (r.recordFailure f).bytes = r.bytes ∧
          (r.recordFailure f).index? c = r.index? c := by
        obtain ⟨_, _, _, _, _, _ | _⟩ := r <;> exact ⟨rfl, rfl⟩
      obtain ⟨hwf, hext⟩ := (hr.wf.recordFailure _).enter ((hsame _).2.trans hrc)
        ((hsame _).1.symm ▸ hb) (hs.mono hfail) ((hsame _).1.symm ▸ hlong) (.inr hne)
      rw [← hswap] at hwf hext
      refine ⟨⟨hwf, hr.extend.trans (hfail.trans hext), fun d i hd => hranks d i ?_⟩, ?_⟩
      · rwa [at?_recordFailure] at hd
      · rwa [at?_recordFailure]

theorem interns_intern {write : PoolM Unit} (hwrite : Writes (fun _ => True) c write) :
    Interns c (intern c write) :=
  fun _ _ _ _ hp h => registers_intern hwrite hp trivial h

theorem writes_emit {f : Buffer → Buffer} {chunk : List UInt8}
    (hf : ∀ b, (f b).toList = b.toList ++ chunk) (hs : ∀ p, P p → p.Spells c chunk)
    (hlong : ∀ b, (f b).tooLong = none → b.tooLong = none ∧
      ∀ t, c = .utf8 t → t.modifiedUtf8.length ≤ textLimit) :
    Writes P c (emit f) := by
  intro slack p q hp hP h
  obtain rfl := ends_emit.1 h
  exact ⟨p, f p.bytes, chunk, .refl hp, rfl, hf _, hs p hP, hlong p.bytes⟩

theorem writes_bind {d : Constant} {x : PoolM Nat} {write : Nat → PoolM Unit}
    (hP : ∀ {p q : Pool}, p.Extends q → P p → P q) (hx : Interns d x) (hd : d.rank < c.rank)
    (hwrite : ∀ i, Writes (fun p => P p ∧ p.at? i = some d) c (write i)) :
    Writes P c (x >>= write) := by
  intro slack p q hp hPp h
  obtain ⟨i, p₁, h₁, h₂⟩ := h.bind
  obtain ⟨hr₁, hat⟩ := hx p i p₁ hp h₁
  obtain ⟨r, b, chunk, hr, hq, hb, hs⟩ := hwrite i p₁ q hr₁.wf ⟨hP hr₁.extend hPp, hat⟩ h₂
  exact ⟨r, b, chunk, (hr₁.mono hd).trans hr, hq, hb, hs⟩

/-! ## The constants of each kind -/

theorem interns_utf8 (t : Text) : Interns (.utf8 t) (utf8 t) :=
  interns_intern <| writes_emit (fun _ => by simp [low8]) (fun _ _ => .utf8 t) fun b hb => by
    obtain ⟨hb, ht⟩ := tooLong_putText hb
    exact ⟨by simpa using hb, fun t' ht' => Constant.utf8.inj ht' ▸ ht⟩

theorem interns_integer (v : Int32) : Interns (.integer v) (integer v) :=
  interns_intern <| writes_emit (fun _ => by simp [putInt, low8]; rfl) (fun _ _ => .integer v)
    (by simp [putInt])

theorem interns_float (bits : UInt32) : Interns (.float bits) (float bits) :=
  interns_intern <| writes_emit (fun _ => by simp [putInt, low8]; rfl) (fun _ _ => .float bits)
    (by simp [putInt])

theorem interns_long (v : Int64) : Interns (.long v) (long v) :=
  interns_intern <| writes_emit (fun _ => by simp [putLong, low8]; rfl) (fun _ _ => .long v)
    (by simp [putLong])

theorem interns_double (bits : UInt64) : Interns (.double bits) (double bits) :=
  interns_intern <| writes_emit (fun _ => by simp [putLong, low8]; rfl) (fun _ _ => .double bits)
    (by simp [putLong])

theorem interns_classRef (name : Text) : Interns (.classRef name) (classRef name) :=
  interns_intern <| writes_bind (fun _ h => h) (interns_utf8 name)
    (by simp [Constant.rank]) fun _ =>
    writes_emit (fun _ => by simp [low8, bytes16]; rfl) (fun _ h => .classRef h.2)
      (by simp)

theorem interns_string (t : Text) : Interns (.string t) (string t) :=
  interns_intern <| writes_bind (fun _ h => h) (interns_utf8 t) (by simp [Constant.rank]) fun _ =>
    writes_emit (fun _ => by simp [low8, bytes16]; rfl) (fun _ h => .string h.2)
      (by simp)

theorem interns_methodType (desc : Text) : Interns (.methodType desc) (methodType desc) :=
  interns_intern <| writes_bind (fun _ h => h) (interns_utf8 desc)
    (by simp [Constant.rank]) fun _ =>
    writes_emit (fun _ => by simp [low8, bytes16]; rfl) (fun _ h => .methodType h.2)
      (by simp)

theorem interns_nameAndType (name desc : Text) :
    Interns (.nameAndType name desc) (nameAndType name desc) :=
  interns_intern <| writes_bind (fun _ h => h) (interns_utf8 name)
    (by simp [Constant.rank]) fun _ =>
    writes_bind (fun hext h => ⟨h.1, hext.at? h.2⟩) (interns_utf8 desc)
      (by simp [Constant.rank]) fun _ =>
      writes_emit (fun _ => by simp [low8, bytes16]; rfl) (fun _ h => .nameAndType h.1.2 h.2)
      (by simp)

theorem writes_emitMember {tag : Nat} {owner name desc : Text} (hc : c.rank = 2)
    (hs : ∀ (p : Pool) (i j : Nat), p.at? i = some (.classRef owner) →
      p.at? j = some (.nameAndType name desc) →
      p.Spells c (low8 tag :: (bytes16 i ++ bytes16 j))) :
    Writes (fun _ => True) c (emitMember tag owner name desc) :=
  writes_bind (fun _ h => h) (interns_classRef owner)
    (by rw [hc]; exact Nat.lt_succ_self 1) fun i =>
    writes_bind (fun hext h => ⟨h.1, hext.at? h.2⟩) (interns_nameAndType name desc)
      (by rw [hc]; exact Nat.lt_succ_self 1) fun j =>
        writes_emit (by simp [bytes16]) (fun p h => hs p i j h.1.2 h.2) fun b hb =>
          ⟨by simpa using hb, fun t ht => by rw [ht] at hc; cases hc⟩

theorem interns_fieldRef (owner name desc : Text) :
    Interns (.fieldRef owner name desc) (fieldRef owner name desc) :=
  interns_intern <| writes_emitMember rfl fun _ _ _ h h' => .fieldRef h h'

theorem rank_methodConstant (owner name desc : Text) (ofInterface : Bool) :
    (methodConstant owner name desc ofInterface).rank = 2 := by
  cases ofInterface <;> rfl

theorem interns_methodRef (owner name desc : Text) (ofInterface : Bool) :
    Interns (methodConstant owner name desc ofInterface)
      (methodRef owner name desc ofInterface) := by
  refine interns_intern <| writes_emitMember (rank_methodConstant _ _ _ _) fun p i j h h' => ?_
  cases ofInterface with
  | false => exact .methodRef h h'
  | true => exact .interfaceMethodRef h h'

end PoolM

theorem Constant.rank_lt_of_mem_parts {c d : Constant} (h : d ∈ c.parts) : d.rank < c.rank := by
  cases c with
  | methodHandle kind owner name desc ofInterface =>
    rw [List.mem_singleton.1 h]
    split
    · exact Nat.lt_succ_self 2
    · rw [PoolM.rank_methodConstant]
      exact Nat.lt_succ_self 2
  | utf8 | integer | float | long | double => cases h
  | classRef | string | methodType | invokeDynamic =>
    rw [List.mem_singleton.1 h]
    simp [Constant.rank]
  | nameAndType | fieldRef | methodRef | interfaceMethodRef =>
    rcases List.mem_pair.1 h with rfl | rfl <;> simp [Constant.rank]

namespace PoolM

open Pool

variable {h : Handle}

/-! ## Handles and values -/

def isHandleKind (kind : Int) : Prop := Handle.getField ≤ kind ∧ kind ≤ Handle.invokeInterface

instance (kind : Int) : Decidable (isHandleKind kind) := inferInstanceAs (Decidable (_ ∧ _))

theorem ends_admitHandle {h' : Handle} {p q : Pool} (e : Ends (admitHandle h) p h' q) :
    isHandleKind h'.kind ∧ (q = p ∧ h' = h ∨ ∃ f, q = p.recordFailure f) := by
  unfold admitHandle at e
  split at e
  · simp only [ends_bind, ends_fail, ends_pure] at e
    obtain ⟨_, _, rfl, rfl, rfl⟩ := e
    exact ⟨(by decide : isHandleKind Handle.invokeStatic), .inr ⟨_, rfl⟩⟩
  next hkind =>
    obtain ⟨rfl, rfl⟩ := e.pure
    simp only [not_or, Int.not_lt] at hkind
    exact ⟨hkind, .inl ⟨rfl, rfl⟩⟩

theorem writes_handle (hkind : isHandleKind h.kind) :
    Writes (fun _ => True) (handleConstant h) (do
      let ref ←
        if h.kind ≤ Handle.putStatic then fieldRef h.owner h.name h.desc
        else methodRef h.owner h.name h.desc h.ofInterface
      emit fun b => (b.putPair 15 h.kind).putShort ref) := by
  have hmin : 1 ≤ h.kind := hkind.1
  have hnat : ((h.kind.toNat : Nat) : Int) = h.kind := Int.toNat_of_nonneg (by omega)
  have hbytes (i : Nat) (b : Buffer) : ((b.putPair 15 h.kind).putShort i).toList =
      b.toList ++ (15 :: low8 h.kind.toNat :: bytes16 i) := by
    rw [hnat]
    simp [bytes16, low8]
    rfl
  by_cases hfield : h.kind ≤ Handle.putStatic
  · simp only [hfield, if_true]
    refine writes_bind (fun _ h => h) (interns_fieldRef h.owner h.name h.desc)
      (Nat.lt_succ_self 2) fun i => writes_emit (hbytes i)
        (fun p hp => .fieldHandle (by omega) ?_ hp.2) (by simp [handleConstant])
    simp only [Handle.putStatic] at hfield
    omega
  · simp only [hfield, if_false]
    refine writes_bind (fun _ h => h) (interns_methodRef h.owner h.name h.desc h.ofInterface)
      (by rw [rank_methodConstant]; exact Nat.lt_succ_self 2) fun i =>
        writes_emit (hbytes i) (fun p hp => .methodHandle ?_ ?_ hp.2) (by simp [handleConstant])
    · simp only [Handle.putStatic] at hfield
      omega
    · have := hkind.2
      simp only [Handle.invokeInterface] at this
      omega

variable {slack : Slack}

theorem ends_handleEntry {p q : Pool} {i : Nat} {c : Constant} (hp : p.Wf slack)
    (e : Ends (handleEntry h) p (i, c) q) :
    Registers 4 p q slack ∧ q.at? i = some c ∧ c.rank = 3 ∧
      (q.failure = none → isHandleKind h.kind ∧ c = handleConstant h) := by
  simp only [handleEntry, ends_bind, ends_pure, Prod.mk.injEq] at e
  obtain ⟨h', p₁, h₁, _, _, h₂, ⟨rfl, rfl⟩, rfl⟩ := e
  obtain ⟨hkind, hp₁⟩ := ends_admitHandle h₁
  have hwf : p₁.Wf slack := by
    rcases hp₁ with ⟨rfl, -⟩ | ⟨f, rfl⟩
    · exact hp
    · exact hp.recordFailure f
  have hstep : Registers 4 p p₁ slack := by
    rcases hp₁ with ⟨rfl, -⟩ | ⟨f, rfl⟩
    · exact .refl hp
    · exact ⟨hwf, extends_recordFailure p f, fun d i hd => .inl (by simpa using hd)⟩
  obtain ⟨hreg, hat⟩ := interns_intern (writes_handle hkind) p₁ _ _ hwf h₂
  refine ⟨hstep.trans hreg, hat, rfl, fun hq => ?_⟩
  rcases hp₁ with ⟨rfl, rfl⟩ | ⟨f, rfl⟩
  · exact ⟨hkind, rfl⟩
  · exact absurd (hreg.extend.no_failure hq) (recordFailure_ne_none p f)

end PoolM

/-- The constant that a value stands for, if it stands for one: whole numbers of up to thirty-two
bits count by their number, fractions by their bits. -/
def Value.constant? : Value → Option Constant
  | .int32 v => some (.integer v)
  | .int v => some (.integer (Int32.ofInt v))
  | .int8 v => some (.integer (Int32.ofInt v.toInt))
  | .int16 v => some (.integer (Int32.ofInt v.toInt))
  | .char v => some (.integer (Int32.ofInt v.toNat))
  | .bool v => some (.integer (if v then 1 else 0))
  | .float32 bits => some (.float bits)
  | .int64 v => some (.long v)
  | .float64 bits => some (.double bits)
  | .string t => some (.string t)
  | .type t =>
    match t.sort with
    | .object => t.internalName.toOption.map .classRef
    | .method => some (.methodType t.desc)
    | _ => some (.classRef t.desc)
  | .handle h => if PoolM.isHandleKind h.kind then some (PoolM.handleConstant h) else none
  | _ => none

namespace PoolM

open Pool

variable {o : Option (Nat × Constant)} {p q : Pool} {v : Value}

/-- What the registration of a value ends with: an entry for the constant of the value, or a
failure. -/
structure ValueRegistered (v : Value) (p : Pool) (o : Option (Nat × Constant)) (q : Pool)
    (slack : Slack) : Prop where
  registers : Registers 4 p q slack
  entry : ∀ i c, o = some (i, c) → q.at? i = some c
  constant : q.failure = none → ∃ i c, o = some (i, c) ∧ v.constant? = some c

variable {slack : Slack}

theorem valueRegistered_of_interns {c : Constant} {x : PoolM Nat} (hp : p.Wf slack)
    (hx : Interns c x) (hc : v.constant? = some c)
    (e : Ends (do return some (← x, c) : PoolM _) p o q) : ValueRegistered v p o q slack := by
  obtain ⟨i, _, h, h'⟩ := e.bind
  obtain ⟨rfl, rfl⟩ := h'.pure
  obtain ⟨hreg, hat⟩ := hx p i _ hp h
  exact ⟨hreg.mono (Nat.succ_le_succ c.rank_le), by simp [hat], fun _ => ⟨i, c, rfl, hc⟩⟩

theorem valueRegistered_fail (hp : p.Wf slack)
    (e : Ends (do fail .badConstant "NewConst" [v]; return none : PoolM _) p o q) :
    ValueRegistered v p o q slack := by
  obtain ⟨_, _, h, h'⟩ := e.bind
  obtain rfl := ends_fail.1 h
  obtain ⟨rfl, rfl⟩ := h'.pure
  refine ⟨⟨hp.recordFailure _, extends_recordFailure p _, fun d i hd => .inl ?_⟩, by simp,
    fun hq => absurd hq (recordFailure_ne_none p _)⟩
  rwa [at?_recordFailure] at hd

theorem ends_valueEntry (hp : p.Wf slack) (e : Ends (valueEntry v) p o q) :
    ValueRegistered v p o q slack := by
  cases v with
  | int32 v =>
    refine valueRegistered_of_interns hp (interns_integer v) rfl ?_
    simpa only [valueEntry, Int32.ofInt_toInt] using e
  | int v => exact valueRegistered_of_interns hp (interns_integer _) rfl e
  | int8 v => exact valueRegistered_of_interns hp (interns_integer _) rfl e
  | int16 v => exact valueRegistered_of_interns hp (interns_integer _) rfl e
  | char v => exact valueRegistered_of_interns hp (interns_integer _) rfl e
  | bool v =>
    cases v with
    | false => exact valueRegistered_of_interns hp (interns_integer _) rfl e
    | true => exact valueRegistered_of_interns hp (interns_integer _) rfl e
  | float32 bits => exact valueRegistered_of_interns hp (interns_float _) rfl e
  | int64 v => exact valueRegistered_of_interns hp (interns_long _) rfl e
  | float64 bits => exact valueRegistered_of_interns hp (interns_double _) rfl e
  | string t => exact valueRegistered_of_interns hp (interns_string _) rfl e
  | type t =>
    obtain ⟨sort, desc⟩ := t
    cases sort with
    | object =>
      obtain ⟨name, _, h, e⟩ := e.bind
      obtain ⟨hname, rfl⟩ := ends_checked.1 h
      refine valueRegistered_of_interns hp (interns_classRef name) ?_ e
      simp [Value.constant?, hname, Except.toOption]
    | method => exact valueRegistered_of_interns hp (interns_methodType _) rfl e
    | _ => exact valueRegistered_of_interns hp (interns_classRef _) rfl e
  | handle h =>
    obtain ⟨⟨i, c⟩, _, he, h'⟩ := e.bind
    obtain ⟨rfl, rfl⟩ := h'.pure
    obtain ⟨hreg, hat, -, hc⟩ := ends_handleEntry hp he
    refine ⟨hreg, by simp [hat], fun hq => ⟨i, c, rfl, ?_⟩⟩
    obtain ⟨hkind, rfl⟩ := hc hq
    simp [Value.constant?, hkind]
  | _ => exact valueRegistered_fail hp e

end PoolM

end ClassAssembler
