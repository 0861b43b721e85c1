import ClassAssembler.Pool

/-!
# Runs

Work on a pool, a session, a method and a class is done in monads that stand on top of each other.
All of them carry a state and may stop with a fault, so one relation describes their runs:
`Ends x s a t` says that `x`, begun in the state `s`, ends with the result `a` in the state `t`.
The state of the work on a pool is the pool; every layer above pairs the state below with its own.

`Keeps R x` says that every run of `x` that ends relates its first state to its last one by `R`.
It is how the parts of the state that a computation leaves alone are named.
-/

namespace ClassAssembler

theorem Checked.bind_eq_ok {α β : Type} {x : Checked α} {f : α → Checked β} {b : β} :
    x >>= f = .ok b ↔ ∃ a, x = .ok a ∧ f a = .ok b := by
  cases x <;> simp [bind, Except.bind]

/-- A monad whose computations carry a state and may stop with a fault. -/
class Stateful (m : Type → Type) [Monad m] (σ : outParam Type) where
  outcome : {α : Type} → m α → σ → Checked (α × σ)
  outcome_pure : ∀ {α : Type} (a : α) (s : σ), outcome (pure a) s = .ok (a, s)
  outcome_bind : ∀ {α β : Type} (x : m α) (f : α → m β) (s : σ),
    outcome (x >>= f) s = outcome x s >>= fun r => outcome (f r.1) r.2

instance : Stateful PoolM Pool where
  outcome x p := x.run p
  outcome_pure _ _ := rfl
  outcome_bind _ _ _ := rfl

instance {m : Type → Type} [Monad m] {σ τ : Type} [Stateful m σ] :
    Stateful (StateT τ m) (σ × τ) where
  outcome x s := (Stateful.outcome (x.run s.2) s.1).map fun r => (r.1.1, (r.2, r.1.2))
  outcome_pure a s := by
    simp [Stateful.outcome_pure, Except.map]
  outcome_bind x f s := by
    simp only [StateT.run_bind, Stateful.outcome_bind]
    cases Stateful.outcome (x.run s.2) s.1 <;> rfl

/-- A monad in which a thrown fault is the outcome. -/
class Faulting (m : Type → Type) [Monad m] [MonadExceptOf Fault m] {σ : outParam Type}
    [Stateful m σ] : Prop where
  outcome_throw : ∀ {α : Type} (e : Fault) (s : σ),
    Stateful.outcome (throw e : m α) s = .error e

instance : Faulting PoolM where
  outcome_throw _ _ := rfl

instance {m : Type → Type} [Monad m] [MonadExceptOf Fault m] {σ τ : Type} [Stateful m σ]
    [Faulting m] : Faulting (StateT τ m) where
  outcome_throw {α} e s := by
    have h : (throw e : StateT τ m α).run s.2 = (do let a ← (throw e : m α); pure (a, s.2)) := rfl
    simp only [Stateful.outcome, h, Stateful.outcome_bind, Faulting.outcome_throw]
    rfl

/-- A computation that is begun in the state `s` ends with the result `a` in the state `t`. -/
def Ends {m : Type → Type} [Monad m] {σ α : Type} [Stateful m σ] (x : m α) (s : σ) (a : α)
    (t : σ) : Prop :=
  Stateful.outcome x s = .ok (a, t)

section Ends

variable {m n : Type → Type} [Monad m] {σ τ α β : Type} [Stateful m σ]

theorem exists_ends_of_map {x : m α} {s : σ} {f : α × σ → β} {b : β}
    (h : (Stateful.outcome x s).map f = .ok b) : ∃ a t, Ends x s a t ∧ f (a, t) = b := by
  cases hx : Stateful.outcome x s with
  | error e => simp [hx, Except.map] at h
  | ok r =>
    rw [hx] at h
    cases h
    exact ⟨r.1, r.2, hx, rfl⟩

/-- A run has one end. -/
theorem Ends.unique {x : m α} {s t u : σ} {a b : α} (h : Ends x s a t) (h' : Ends x s b u) :
    a = b ∧ t = u := by
  unfold Ends at h h'
  rw [h] at h'
  simpa using h'

@[simp] theorem ends_pure {a b : α} {s t : σ} : Ends (pure a : m α) s b t ↔ a = b ∧ s = t := by
  simp [Ends, Stateful.outcome_pure]

@[simp] theorem ends_bind {x : m α} {f : α → m β} {s u : σ} {b : β} :
    Ends (x >>= f) s b u ↔ ∃ a t, Ends x s a t ∧ Ends (f a) t b u := by
  unfold Ends
  rw [Stateful.outcome_bind]
  cases h : Stateful.outcome x s with
  | error e => simp [bind, Except.bind]
  | ok r =>
    constructor
    · exact fun hf => ⟨r.1, r.2, rfl, hf⟩
    · rintro ⟨a, t, hr, hf⟩
      cases hr
      exact hf

theorem Ends.pure {a b : α} {s t : σ} (h : Ends (Pure.pure a : m α) s b t) :
    a = b ∧ s = t := ends_pure.1 h

theorem Ends.bind {x : m α} {f : α → m β} {s u : σ} {b : β} (h : Ends (x >>= f) s b u) :
    ∃ a t, Ends x s a t ∧ Ends (f a) t b u :=
  ends_bind.1 h

theorem ends_unless {c : Prop} [Decidable c] {x : m PUnit} {f : PUnit → m β} {s u : σ} {b : β} :
    Ends (if c then f ⟨⟩ else x >>= f) s b u ↔
      ∃ t, Ends (if c then pure ⟨⟩ else x) s ⟨⟩ t ∧ Ends (f ⟨⟩) t b u := by
  split
  · simp
  · rw [ends_bind]
    exact ⟨fun ⟨_, t, h, h'⟩ => ⟨t, h, h'⟩, fun ⟨t, h, h'⟩ => ⟨⟨⟩, t, h, h'⟩⟩

theorem ends_when {c : Prop} [Decidable c] {x : m PUnit} {f : PUnit → m β} {s u : σ} {b : β} :
    Ends (if c then x >>= f else f ⟨⟩) s b u ↔
      ∃ t, Ends (if c then x else pure ⟨⟩) s ⟨⟩ t ∧ Ends (f ⟨⟩) t b u := by
  split
  · rw [ends_bind]
    exact ⟨fun ⟨_, t, h, h'⟩ => ⟨t, h, h'⟩, fun ⟨t, h, h'⟩ => ⟨⟨⟩, t, h, h'⟩⟩
  · simp

@[simp] theorem ends_map {x : m α} [LawfulMonad m] {f : α → β} {s u : σ} {b : β} :
    Ends (f <$> x) s b u ↔ ∃ a, Ends x s a u ∧ f a = b := by
  rw [← bind_pure_comp, ends_bind]
  constructor
  · rintro ⟨a, t, h, h'⟩
    obtain ⟨rfl, rfl⟩ := ends_pure.1 h'
    exact ⟨a, h, rfl⟩
  · rintro ⟨a, h, rfl⟩
    exact ⟨a, u, h, ends_pure.2 ⟨rfl, rfl⟩⟩

@[simp] theorem ends_discard {x : m α} [LawfulMonad m] {s u : σ} {r : PUnit} :
    Ends (discard x) s r u ↔ ∃ a, Ends x s a u := by
  rw [Functor.discard, LawfulFunctor.map_const]
  simp

@[simp] theorem ends_throw [MonadExceptOf Fault m] [Faulting m] {e : Fault} {s t : σ} {a : α} :
    ¬ Ends (throw e : m α) s a t := by
  simp [Ends, Faulting.outcome_throw]

@[simp] theorem ends_get {s t : σ × τ} {a : τ} :
    Ends (get : StateT τ m τ) s a t ↔ s.2 = a ∧ s = t := by
  simp only [Ends, Stateful.outcome, StateT.run_get, Stateful.outcome_pure, Except.map,
    Except.ok.injEq, Prod.mk.injEq]

theorem ends_get_bind {f : τ → StateT τ m β} {s t : σ × τ} {b : β} :
    Ends (get >>= f) s b t ↔ Ends (f s.2) s b t := by
  rw [ends_bind]
  constructor
  · rintro ⟨a, u, h, e⟩
    obtain ⟨rfl, rfl⟩ := ends_get.1 h
    exact e
  · exact fun e => ⟨s.2, s, ends_get.2 ⟨rfl, rfl⟩, e⟩

@[simp] theorem ends_getThe {s t : σ × τ} {a : τ} :
    Ends (getThe τ : StateT τ m τ) s a t ↔ s.2 = a ∧ s = t :=
  ends_get

@[simp] theorem ends_set {s t : σ × τ} {v : τ} {a : PUnit} :
    Ends (set v : StateT τ m PUnit) s a t ↔ (s.1, v) = t := by
  simp only [Ends, Stateful.outcome, StateT.run_set, Stateful.outcome_pure, Except.map,
    Except.ok.injEq, Prod.mk.injEq, true_and]

@[simp] theorem ends_modifyGet {s t : σ × τ} {f : τ → α × τ} {a : α} :
    Ends (modifyGet f : StateT τ m α) s a t ↔ (f s.2).1 = a ∧ (s.1, (f s.2).2) = t := by
  simp only [Ends, Stateful.outcome, StateT.run_modifyGet, Stateful.outcome_pure, Except.map,
    Except.ok.injEq, Prod.mk.injEq]

@[simp] theorem ends_modify {s t : σ × τ} {f : τ → τ} {a : PUnit} :
    Ends (modify f : StateT τ m PUnit) s a t ↔ (s.1, f s.2) = t := by
  have h : (modify f : StateT τ m PUnit) = modifyGet fun u => (⟨⟩, f u) := rfl
  simp [h]

theorem Ends.modify {s t : σ × τ} {f : τ → τ} {a : PUnit}
    (h : Ends (modify f : StateT τ m PUnit) s a t) : (s.1, f s.2) = t :=
  ends_modify.1 h

theorem ends_modify_bind {f : τ → τ} {g : PUnit → StateT τ m β} {s t : σ × τ} {b : β} :
    Ends (modify f >>= g) s b t ↔ Ends (g ⟨⟩) (s.1, f s.2) b t := by
  rw [ends_bind]
  constructor
  · rintro ⟨_, u, h, e⟩
    obtain rfl := ends_modify.1 h
    exact e
  · exact fun e => ⟨⟨⟩, _, ends_modify.2 rfl, e⟩

@[simp] theorem ends_lift [MonadLiftT n m] {x : n α} {s t : σ × τ} {a : α} :
    Ends (liftM x : StateT τ m α) s a t ↔ Ends (liftM x : m α) s.1 a t.1 ∧ s.2 = t.2 := by
  have h : (liftM x : StateT τ m α).run s.2 = (do let a ← (liftM x : m α); pure (a, s.2)) := rfl
  simp only [Ends, Stateful.outcome, h, Stateful.outcome_bind]
  cases Stateful.outcome (liftM x : m α) s.1 with
  | error e => simp [bind, Except.bind, Except.map]
  | ok r =>
    simp only [bind, Except.bind, Stateful.outcome_pure, Except.map, Except.ok.injEq,
      Prod.mk.injEq]
    constructor
    · rintro ⟨rfl, rfl⟩
      exact ⟨rfl, rfl⟩
    · rintro ⟨rfl, h⟩
      exact ⟨rfl, by rw [h]⟩

theorem Ends.lift [MonadLiftT n m] {x : n α} {s t : σ × τ} {a : α}
    (h : Ends (liftM x : StateT τ m α) s a t) : Ends (liftM x : m α) s.1 a t.1 ∧ s.2 = t.2 :=
  ends_lift.1 h

@[simp] theorem ends_liftSelf {x : m α} {s t : σ} {a : α} :
    Ends (liftM x : m α) s a t ↔ Ends x s a t :=
  Iff.rfl

@[simp] theorem ends_run {x : StateT τ m α} {s t : σ} {u : τ} {a : α × τ} :
    Ends (x.run u) s a t ↔ Ends x (s, u) a.1 (t, a.2) := by
  simp only [Ends, Stateful.outcome]
  cases Stateful.outcome (x.run u) s with
  | error e => simp [Except.map]
  | ok r =>
    obtain ⟨⟨a', u'⟩, t'⟩ := r
    obtain ⟨b, v⟩ := a
    simp only [Except.ok.injEq, Prod.mk.injEq, Except.map]
    constructor
    · rintro ⟨⟨rfl, rfl⟩, rfl⟩
      exact ⟨rfl, rfl, rfl⟩
    · rintro ⟨rfl, rfl, rfl⟩
      exact ⟨⟨rfl, rfl⟩, rfl⟩

end Ends

/-! ## The bottom layer -/

section Pool

variable {α : Type} {p q : Pool}

@[simp] theorem ends_pool_get {a : Pool} : Ends (get : PoolM Pool) p a q ↔ p = a ∧ p = q := by
  simp [Ends, Stateful.outcome, pure, Except.pure]

@[simp] theorem ends_pool_getThe {a : Pool} :
    Ends (getThe Pool : PoolM Pool) p a q ↔ p = a ∧ p = q :=
  ends_pool_get

@[simp] theorem ends_pool_modify {f : Pool → Pool} {a : PUnit} :
    Ends (modify f : PoolM PUnit) p a q ↔ f p = q := by
  simp [Ends, Stateful.outcome, pure, Except.pure]

@[simp] theorem ends_checked {x : Checked α} {a : α} :
    Ends (liftM x : PoolM α) p a q ↔ x = .ok a ∧ p = q := by
  have h : (liftM x : PoolM α).run p = (do let a ← x; pure (a, p)) := rfl
  simp only [Ends, Stateful.outcome, h]
  cases x with
  | error e => simp [bind, Except.bind]
  | ok b => simp [bind, Except.bind, pure, Except.pure]

end Pool

@[simp] theorem ends_getThe_lift {m : Type → Type} [Monad m] {σ τ ρ : Type} [Stateful m σ]
    [MonadStateOf ρ m] {s t : σ × τ} {a : ρ} :
    Ends (getThe ρ : StateT τ m ρ) s a t ↔ Ends (getThe ρ : m ρ) s.1 a t.1 ∧ s.2 = t.2 :=
  ends_lift

@[simp] theorem ends_modifyThe_lift {m : Type → Type} [Monad m] {σ τ ρ : Type} [Stateful m σ]
    [MonadStateOf ρ m] {s t : σ × τ} {f : ρ → ρ} {a : PUnit} :
    Ends (modifyThe ρ f : StateT τ m PUnit) s a t ↔
      Ends (modifyThe ρ f : m PUnit) s.1 a t.1 ∧ s.2 = t.2 :=
  ends_lift

/-! ## Relations between the first and the last state -/

/-- A relation that holds between a state and itself and along several steps. -/
class Steps {σ : Type} (R : σ → σ → Prop) : Prop where
  refl : ∀ s, R s s
  trans : ∀ {s t u}, R s t → R t u → R s u

/-- Every run of a computation that ends relates its first state to its last one.  This follows the
structure of the computation, so it is found by instance search. -/
class Keeps {m : Type → Type} [Monad m] {σ α : Type} [Stateful m σ] (R : σ → σ → Prop)
    (x : m α) : Prop where
  run : ∀ s a t, Ends x s a t → R s t

section Keeps

variable {m n : Type → Type} [Monad m] {σ τ α β : Type} [Stateful m σ] {R : σ → σ → Prop}
  {Q : σ × τ → σ × τ → Prop}

theorem Ends.keeps {x : m α} [hx : Keeps R x] {s t : σ} {a : α} (h : Ends x s a t) :
    R s t := hx.run s a t h

instance keeps_pure [Steps R] (a : α) : Keeps R (pure a : m α) := by
  refine ⟨fun s b t h => ?_⟩
  obtain ⟨-, rfl⟩ := ends_pure.1 h
  exact Steps.refl _

theorem Keeps.bind [Steps R] {x : m α} {f : α → m β} (hx : Keeps R x)
    (hf : ∀ a, Keeps R (f a)) : Keeps R (x >>= f) := by
  refine ⟨fun s b u h => ?_⟩
  obtain ⟨a, t, hs, ht⟩ := ends_bind.1 h
  exact Steps.trans (hx.run s a t hs) ((hf a).run t b u ht)

instance keeps_bind [Steps R] {x : m α} {f : α → m β} [hx : Keeps R x]
    [hf : ∀ a, Keeps R (f a)] : Keeps R (x >>= f) :=
  hx.bind hf

theorem keeps_then [Steps R] {x : m α} {f : α → m β} [hx : Keeps R x] (hf : ∀ a, Keeps R (f a)) :
    Keeps R (x >>= f) :=
  hx.bind hf

instance keeps_map [LawfulMonad m] {x : m α} {f : α → β} [hx : Keeps R x] :
    Keeps R (f <$> x) := by
  refine ⟨fun s b t h => ?_⟩
  obtain ⟨a, h, -⟩ := ends_map.1 h
  exact hx.run s a t h

instance keeps_discard [LawfulMonad m] {x : m α} [Keeps R x] : Keeps R (discard x) := by
  unfold discard
  rw [LawfulFunctor.map_const]
  exact keeps_map

instance keeps_throw [MonadExceptOf Fault m] [Faulting m] (e : Fault) :
    Keeps R (throw e : m α) :=
  ⟨fun _ _ _ h => absurd h ends_throw⟩

instance keeps_get [Steps Q] : Keeps Q (get : StateT τ m τ) := by
  refine ⟨fun s a t h => ?_⟩
  obtain ⟨-, rfl⟩ := ends_get.1 h
  exact Steps.refl _

instance keeps_pool_get {R : Pool → Pool → Prop} [Steps R] :
    Keeps R (get : PoolM Pool) := by
  refine ⟨fun p a q h => ?_⟩
  obtain ⟨-, rfl⟩ := ends_pool_get.1 h
  exact Steps.refl _

instance keeps_checked {R : Pool → Pool → Prop} [Steps R] (x : Checked α) :
    Keeps R (liftM x : PoolM α) := by
  refine ⟨fun p a q h => ?_⟩
  obtain ⟨-, rfl⟩ := ends_checked.1 h
  exact Steps.refl _

instance keeps_liftSelf {x : m α} [hx : Keeps R x] : Keeps R (liftM x : m α) := hx

theorem keeps_lift [MonadLiftT n m] {x : n α} (hx : Keeps R (liftM x : m α))
    (hQ : ∀ s t u, R s t → Q (s, u) (t, u)) : Keeps Q (liftM x : StateT τ m α) := by
  refine ⟨fun ⟨s, u⟩ a ⟨t, v⟩ hs => ?_⟩
  obtain ⟨hs, rfl⟩ := ends_lift.1 hs
  exact hQ s t _ (hx.run s a t hs)

instance keeps_ite {c : Prop} [Decidable c] {x y : m α} [hx : Keeps R x] [hy : Keeps R y] :
    Keeps R (if c then x else y) := by
  split
  · exact hx
  · exact hy

instance keeps_forIn [Steps R] {f : α → β → m (ForInStep β)}
    [hf : ∀ a b, Keeps R (f a b)] (l : List α) (b : β) : Keeps R (forIn l b f) := by
  induction l generalizing b with
  | nil =>
    rw [List.forIn_nil]
    exact keeps_pure b
  | cons a l ih =>
    rw [List.forIn_cons]
    refine (hf a b).bind fun r => ?_
    cases r with
    | done c => exact keeps_pure c
    | yield c => exact ih c

instance keeps_forIn_array [LawfulMonad m] [Steps R] {f : α → β → m (ForInStep β)}
    [hf : ∀ a b, Keeps R (f a b)] (l : Array α) (b : β) : Keeps R (forIn l b f) := by
  rw [← Array.forIn_toList]
  exact keeps_forIn l.toList b

end Keeps

/-! ## Computations that always end -/

def Returns {m : Type → Type} [Monad m] {σ α : Type} [Stateful m σ] (x : m α) : Prop :=
  ∀ s, ∃ a t, Ends x s a t

section Returns

variable {m : Type → Type} [Monad m] {σ α β : Type} [Stateful m σ]

theorem returns_pure (a : α) : Returns (pure a : m α) :=
  fun s => ⟨a, s, ends_pure.2 ⟨rfl, rfl⟩⟩

theorem returns_bind {x : m α} {f : α → m β} (hx : Returns x) (hf : ∀ a, Returns (f a)) :
    Returns (x >>= f) := by
  intro s
  obtain ⟨a, t, h⟩ := hx s
  obtain ⟨b, u, h'⟩ := hf a t
  exact ⟨b, u, ends_bind.2 ⟨a, t, h, h'⟩⟩

theorem returns_pool_get : Returns (get : PoolM Pool) :=
  fun p => ⟨p, p, ends_pool_get.2 ⟨rfl, rfl⟩⟩

theorem returns_pool_modify (f : Pool → Pool) : Returns (modify f : PoolM PUnit) :=
  fun p => ⟨⟨⟩, f p, ends_pool_modify.2 rfl⟩

end Returns

end ClassAssembler
