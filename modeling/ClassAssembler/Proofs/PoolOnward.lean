import ClassAssembler.Proofs.PoolEntries

/-!
# What no work on a pool undoes

Whatever is asked of a pool, well formed or not, constants that have an index keep having one and a
failure that is recorded stays.  New failures have many causes, but a wrong size of the class file
is none of them: nobody knows the size before the class is written out.
-/

namespace ClassAssembler

/-! ## Causes of failures -/

/-- Whether a cause may have the number of a class file with a wrong size. -/
@[reducible] def Cause.isLate : Cause → Bool
  | .sizeMismatch | .other _ => true
  | _ => false

/-- A condition that is evaluated to false. -/
class IsFalse (b : Bool) : Prop where
  eq : b = false

instance : IsFalse false := ⟨rfl⟩

/-- A cause that does not have the number of a class file with a wrong size. -/
class Cause.Early (cause : Cause) : Prop where
  ne : cause.code ≠ Cause.sizeMismatch.code

instance {cause : Cause} [h : IsFalse cause.isLate] : cause.Early := by
  refine ⟨?_⟩
  cases cause with
  | sizeMismatch => cases h.eq
  | other => cases h.eq
  | _ => decide

/-- The constant has an index. -/
def Pool.Knows (p : Pool) (c : Constant) : Prop := (p.index? c).isSome

/-- What becomes of any pool. -/
structure Pool.Onward (p q : Pool) : Prop where
  known : ∀ c, p.Knows c → q.Knows c
  failure : ∀ f, p.failure = some f → q.failure = some f
  cause : ∀ f, q.failure = some f → p.failure = some f ∨ f.cause.Early

namespace Pool

instance : Steps Onward where
  refl _ := ⟨fun _ h => h, fun _ h => h, fun _ h => .inl h⟩
  trans h h' := by
    refine ⟨fun c hc => h'.known c (h.known c hc), fun f hf => h'.failure f (h.failure f hf),
      fun f hf => ?_⟩
    rcases h'.cause f hf with hf | hf
    · exact h.cause f hf
    · exact .inr hf

theorem Onward.no_failure {p q : Pool} (h : p.Onward q) (hq : q.failure = none) :
    p.failure = none := by
  cases hp : p.failure with
  | none => rfl
  | some f =>
    rw [h.failure f hp] at hq
    cases hq

theorem onward_recordFailure (p : Pool) (f : Failure) [hf : f.cause.Early] :
    p.Onward (p.recordFailure f) := by
  unfold recordFailure
  split
  · exact Steps.refl p
  next hnone =>
    refine ⟨fun _ h => h, fun g hg => ?_, fun g hg => ?_⟩
    · rw [hnone] at hg
      cases hg
    · cases hg
      exact .inr hf

end Pool

/-! ## Work on pools -/

/-- A relation that every step of the work on a pool keeps, new bootstrap methods apart. -/
class PoolWork (R : Pool → Pool → Prop) : Prop extends Steps R where
  fail : ∀ (p : Pool) (f : Failure), f.cause.Early → R p (p.recordFailure f)
  emit : ∀ (p : Pool) (b : Buffer), R p { p with bytes := b }
  enter : ∀ (p : Pool) (c : Constant), R p (p.enter c)

instance : PoolWork Pool.Onward where
  fail p f _ := Pool.onward_recordFailure p f
  emit _ _ := ⟨fun _ h => h, fun _ h => h, fun _ h => .inl h⟩
  enter _ _ := ⟨fun c h => (SymbolTable.isSome_get?_put c.key_isPlain).2 (.inr h), fun _ h => h,
    fun _ h => .inl h⟩

namespace PoolM

open Pool

variable {R : Pool → Pool → Prop} [PoolWork R]

instance keeps_fail (cause : Cause) [hcause : cause.Early] (op : String) (args : List Value) :
    Keeps R (fail cause op args) := by
  refine ⟨fun p a q h => ?_⟩
  obtain rfl := ends_fail.1 h
  exact PoolWork.fail p _ hcause

instance keeps_emit (f : Buffer → Buffer) : Keeps R (emit f) := by
  refine ⟨fun p a q h => ?_⟩
  obtain rfl := ends_emit.1 h
  exact PoolWork.emit p _

instance keeps_register (c : Constant) : Keeps R (register c) := by
  refine ⟨fun p i q h => ?_⟩
  obtain ⟨-, ⟨rfl, -⟩ | rfl⟩ := ends_register h
  · exact PoolWork.enter p c
  · exact Steps.trans (PoolWork.enter p c) (PoolWork.fail _ _ inferInstance)

instance keeps_intern (c : Constant) (write : PoolM Unit) [Keeps R write] :
    Keeps R (intern c write) := by
  refine Keeps.bind ?_ fun o => ?_
  · unfold index?
    infer_instance
  · cases o <;> infer_instance

instance keeps_utf8 (t : Text) : Keeps R (utf8 t) := keeps_intern _ _

instance keeps_classRef (name : Text) : Keeps R (classRef name) := keeps_intern _ _

instance keeps_string (t : Text) : Keeps R (string t) := keeps_intern _ _

instance keeps_methodType (desc : Text) : Keeps R (methodType desc) := keeps_intern _ _

instance keeps_nameAndType (name desc : Text) : Keeps R (nameAndType name desc) := keeps_intern _ _

instance keeps_emitMember (tag : Nat) (owner name desc : Text) :
    Keeps R (emitMember tag owner name desc) := by
  unfold emitMember
  infer_instance

instance keeps_fieldRef (owner name desc : Text) :
    Keeps R (fieldRef owner name desc) := keeps_intern _ _

instance keeps_methodRef (owner name desc : Text) (ofInterface : Bool) :
    Keeps R (methodRef owner name desc ofInterface) :=
  keeps_intern _ _

instance keeps_integer (v : Int32) : Keeps R (integer v) := keeps_intern _ _

instance keeps_float (bits : UInt32) : Keeps R (float bits) := keeps_intern _ _

instance keeps_long (v : Int64) : Keeps R (long v) := keeps_intern _ _

instance keeps_double (bits : UInt64) : Keeps R (double bits) := keeps_intern _ _

instance keeps_handleEntry (h : Handle) : Keeps R (handleEntry h) := by
  unfold handleEntry admitHandle
  infer_instance

instance keeps_valueEntry (v : Value) : Keeps R (valueEntry v) := by
  cases v with
  | type t =>
    obtain ⟨sort, desc⟩ := t
    cases sort <;> (dsimp only [valueEntry]; infer_instance)
  | _ => dsimp only [valueEntry]; infer_instance

instance keeps_value (v : Value) : Keeps R (value v) := by
  refine keeps_then fun o => ?_
  split <;> infer_instance

instance keeps_values (vs : List Value) : Keeps R (values vs) := by
  induction vs with
  | nil => exact keeps_pure _
  | cons v vs ih => exact keeps_then fun _ => inferInstance

instance onward_bootstrap (method : Handle) (args : List Value) :
    Keeps Onward (bootstrap method args) := by
  unfold bootstrap methodHandle
  -- appending words and taking them back leaves the constants alone
  have hmodify (f : Pool → Pool) (hf : ∀ p, p.Onward (f p)) :
      Keeps Onward (modify f : PoolM Unit) :=
    ⟨fun p a q h => ends_pool_modify.1 h ▸ hf p⟩
  refine keeps_then fun m => keeps_then fun is => keeps_then fun p =>
    Keeps.bind (hmodify _ fun _ => ⟨fun _ h => h, fun _ h => h, fun _ h => .inl h⟩)
      fun _ => keeps_then fun p => ?_
  dsimp only
  split
  · exact Keeps.bind (hmodify _ fun _ => ⟨fun _ h => h, fun _ h => h, fun _ h => .inl h⟩)
      fun _ => inferInstance
  · refine keeps_then fun p => Keeps.bind (hmodify _ fun _ => ?_) fun _ => inferInstance
    exact ⟨fun c h => (SymbolTable.isSome_get?_put c.key_isPlain).2 (.inr h), fun _ h => h,
      fun _ h => .inl h⟩

instance onward_dynamicEntry (name desc : Text) (method : Handle) (args : List Value) :
    Keeps Onward (dynamicEntry name desc method args) := by
  unfold dynamicEntry
  infer_instance

end PoolM

end ClassAssembler
