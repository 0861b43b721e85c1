import ClassAssembler.Proofs.ClassParts

/-!
# Sizes that are predicted

A class is sized before it is written, by formulas that know nothing of the bytes.  `Predicts`
relates the computation of a size to the computation of what is sized.  When the size has been
worked out without a failure, the pool is complete: sizing again and making the parts leave it as it
is, and the parts have the size that was worked out.  `ClassBody.written_measure` says so of a whole
class.
-/

namespace ClassAssembler

open Buffer List

/-! ## Complete pools -/

namespace PoolM

variable {t : Text} {p q : Pool}

theorem knows_intern {c : Constant} {write : PoolM Unit} {i : Nat}
    (e : Ends (intern c write) p i q) : q.Knows c := by
  simp only [intern, index?, ends_bind, ends_pool_get, ends_pure] at e
  obtain ⟨o, _, ⟨_, _, ⟨rfl, rfl⟩, ho, rfl⟩, e⟩ := e
  cases o with
  | some j =>
    obtain ⟨-, rfl⟩ := e.pure
    exact Option.isSome_iff_exists.2 ⟨j, ho⟩
  | none =>
    obtain ⟨_, p₁, -, e⟩ := e.bind
    have henter : (p₁.enter c).Knows c :=
      (SymbolTable.isSome_get?_put c.key_isPlain).2 (.inl (TableKey.agrees_refl _))
    obtain ⟨-, ⟨rfl, -⟩ | rfl⟩ := ends_register e
    · exact henter
    · unfold Pool.recordFailure
      split <;> exact henter

theorem knows_utf8 {i : Nat} (e : Ends (utf8 t) p i q) : q.Knows (.utf8 t) :=
  knows_intern e

theorem ends_utf8_of_knows (h : p.Knows (.utf8 t)) : ∃ i, Ends (utf8 t) p i p := by
  obtain ⟨i, hi⟩ := Option.isSome_iff_exists.1 h
  refine ⟨i, ?_⟩
  simp only [utf8, intern, index?, ends_bind, ends_pool_get, ends_pure]
  exact ⟨_, _, ⟨_, _, ⟨rfl, rfl⟩, hi, rfl⟩, by simp⟩

end PoolM

/-- A pool has all constants of another one and the same bootstrap methods. -/
structure Pool.Includes (r q : Pool) : Prop where
  known : ∀ c, q.Knows c → r.Knows c
  count : r.bootstrapCount = q.bootstrapCount
  bootstraps : r.bootstrapBytes = q.bootstrapBytes

theorem Pool.Includes.refl (q : Pool) : q.Includes q := ⟨fun _ h => h, rfl, rfl⟩

theorem Pool.Includes.before {p q r : Pool} (h : r.Includes q) (hadds : p.Adds q) : r.Includes p :=
  ⟨fun c hc => h.known c (hadds.grows.onward.known c hc), h.count.trans hadds.count,
    h.bootstraps.trans hadds.bootstraps⟩

/-! ## Predictions -/

/-- A computation of a size predicts another computation.  Once it has ended without a failure, on a
pool that had the texts of `k`, both leave every pool alone that has what its last pool has, and the
result of the other one has the size. -/
structure Predicts {α : Type} (k : List Text) (size : α → Int) (x : PoolM Int) (y : PoolM α) :
    Prop where
  adds : Keeps Pool.Adds x
  settled : ∀ {p q r : Pool} {n : Int}, (∀ t ∈ k, p.Knows (.utf8 t)) → Ends x p n q →
    q.failure = none → r.Includes q → Ends x r n r ∧ ∃ a, Ends y r a r ∧ size a = n

section

variable {α β γ : Type} {k : List Text} {size : α → Int} {size' : β → Int} {size'' : γ → Int}
  {x x' : PoolM Int} {y : PoolM α} {y' : PoolM β}

theorem predicts_pure {n : Int} {a : α} (h : size a = n) :
    Predicts k size (pure n) (pure a) := by
  refine ⟨inferInstance, fun _ e _ _ => ?_⟩
  obtain ⟨rfl, rfl⟩ := e.pure
  exact ⟨ends_pure.2 ⟨rfl, rfl⟩, a, ends_pure.2 ⟨rfl, rfl⟩, h⟩

theorem Predicts.map (h : Predicts k size x y) {f : Int → Int} {g : α → β}
    (hsize : ∀ a, size' (g a) = f (size a)) :
    Predicts k size' (x >>= fun n => pure (f n)) (y >>= fun a => pure (g a)) := by
  have hadds := h.adds
  refine ⟨inferInstance, fun hk e hq hr => ?_⟩
  obtain ⟨n, _, e₁, e⟩ := e.bind
  obtain ⟨rfl, rfl⟩ := e.pure
  obtain ⟨hx, a, hy, rfl⟩ := h.settled hk e₁ hq hr
  exact ⟨ends_bind.2 ⟨_, _, hx, ends_pure.2 ⟨rfl, rfl⟩⟩, g a,
    ends_bind.2 ⟨a, _, hy, ends_pure.2 ⟨rfl, rfl⟩⟩, hsize a⟩

theorem Predicts.both (h : Predicts k size x y) (h' : Predicts k size' x' y') {g : α → β → γ}
    (hsize : ∀ a b, size'' (g a b) = size a + size' b) :
    Predicts k size'' (x >>= fun m => x' >>= fun n => pure (m + n))
      (y >>= fun a => y' >>= fun b => pure (g a b)) := by
  have hadds := h.adds
  have hadds' := h'.adds
  refine ⟨inferInstance, fun hk e hq hr => ?_⟩
  obtain ⟨m, p₁, e₁, e⟩ := e.bind
  obtain ⟨n, _, e₂, e⟩ := e.bind
  obtain ⟨rfl, rfl⟩ := e.pure
  have h₁ : Pool.Adds _ p₁ := hadds.run _ _ _ e₁
  have h₂ : Pool.Adds p₁ _ := hadds'.run _ _ _ e₂
  have hk₁ := fun t ht => h₁.grows.onward.known _ (hk t ht)
  obtain ⟨hx, a, hy, rfl⟩ := h.settled hk e₁ (h₂.grows.onward.no_failure hq) (hr.before h₂)
  obtain ⟨hx', b, hy', rfl⟩ := h'.settled hk₁ e₂ hq hr
  exact ⟨ends_bind.2 ⟨_, _, hx, ends_bind.2 ⟨_, _, hx', ends_pure.2 ⟨rfl, rfl⟩⟩⟩, g a b,
    ends_bind.2 ⟨a, _, hy, ends_bind.2 ⟨b, _, hy', ends_pure.2 ⟨rfl, rfl⟩⟩⟩, hsize a b⟩

theorem predicts_utf8 {t : Text} {y : Nat → PoolM α} (h : ∀ i, Predicts k size x (y i)) :
    Predicts k size (discard (PoolM.utf8 t) >>= fun _ => x) (PoolM.utf8 t >>= y) := by
  have hadds := (h 0).adds
  refine ⟨inferInstance, fun hk e hq hr => ?_⟩
  obtain ⟨_, p₁, e₁, e⟩ := e.bind
  obtain ⟨j, e₁⟩ := ends_discard.1 e₁
  have h₁ : Pool.Adds _ p₁ := e₁.keeps
  have h₂ : Pool.Adds p₁ _ := hadds.run _ _ _ e
  have hk₁ := fun t ht => h₁.grows.onward.known _ (hk t ht)
  obtain ⟨i, hi⟩ := PoolM.ends_utf8_of_knows ((hr.before h₂).known _ (PoolM.knows_utf8 e₁))
  obtain ⟨hx, a, hy, ha⟩ := (h i).settled hk₁ e hq hr
  exact ⟨ends_bind.2 ⟨⟨⟩, _, ends_discard.2 ⟨i, hi⟩, hx⟩, a, ends_bind.2 ⟨i, _, hi, hy⟩, ha⟩

theorem predicts_utf8_known {t : Text} (ht : t ∈ k) {y : Nat → PoolM α}
    (h : ∀ i, Predicts k size x (y i)) : Predicts k size x (PoolM.utf8 t >>= y) := by
  have hadds := (h 0).adds
  refine ⟨hadds, fun hk e hq hr => ?_⟩
  have h₁ : Pool.Adds _ _ := hadds.run _ _ _ e
  obtain ⟨i, hi⟩ := PoolM.ends_utf8_of_knows ((hr.before h₁).known _ (hk t ht))
  obtain ⟨hx, a, hy, ha⟩ := (h i).settled hk e hq hr
  exact ⟨hx, a, ends_bind.2 ⟨i, _, hi, hy⟩, ha⟩

end

/-! ## Attributes -/

namespace Attribute

variable {xs : List (PoolM Int)}

def extent (as : List Attribute) : Int := (as.flatMap bytes).length

def weight (b : Buffer) : Int := b.size

variable {k : List Text}

theorem extent_append (as bs : List Attribute) : extent (as ++ bs) = extent as + extent bs := by
  simp [extent]

theorem extent_singleton (a : Attribute) : extent [a] = 6 + weight a.content := by
  simp [extent, weight, length_bytes]

theorem adds_total (h : ∀ x ∈ xs, Keeps Pool.Adds x) : Keeps Pool.Adds (total xs) := by
  induction xs with
  | nil => exact keeps_pure _
  | cons x xs ih =>
    have hx := h x mem_cons_self
    have hxs := ih fun x hx => h x (mem_cons_of_mem _ hx)
    unfold total
    infer_instance

theorem predicts_total {ys : List (PoolM (List Attribute))}
    (h : Forall₂ (Predicts k extent) xs ys) : Predicts k extent (total xs) (gather ys) := by
  induction h with
  | nil => exact predicts_pure rfl
  | cons hx _ ih => exact hx.both ih extent_append

theorem ends_of_mem_total {p q : Pool} {n : Int} (hadds : ∀ x ∈ xs, Keeps Pool.Adds x)
    (e : Ends (total xs) p n q) (hq : q.failure = none) {x : PoolM Int} (hx : x ∈ xs) :
    ∃ p' m q', Ends x p' m q' ∧ q'.failure = none := by
  induction xs generalizing p n with
  | nil => cases hx
  | cons x' xs ih =>
    obtain ⟨m, p₁, e₁, e⟩ := e.bind
    obtain ⟨m', _, e₂, e⟩ := e.bind
    obtain ⟨-, rfl⟩ := e.pure
    rcases mem_cons.1 hx with rfl | hx
    · have hrest : Keeps Pool.Adds (total xs) :=
        adds_total fun x hx => hadds x (mem_cons_of_mem _ hx)
      exact ⟨p, m, p₁, e₁, (hrest.run _ _ _ e₂).grows.onward.no_failure hq⟩
    · exact ih (fun x hx => hadds x (mem_cons_of_mem _ hx)) e₂ hx

theorem predicts_make {wanted : Bool} {name : String} {l : Int} {x : PoolM Int} {y : PoolM Buffer}
    (h : wanted = true → Predicts k weight x y) :
    Predicts k extent (measure wanted name x) (make wanted name l y) := by
  cases wanted with
  | false => exact predicts_pure rfl
  | true => exact predicts_utf8 fun i => (h rfl).map fun b => extent_singleton _

theorem predicts_bytes {wanted : Bool} {name : String} {n l : Int} {b : Buffer}
    (h : wanted = true → (b.toList.length : Int) = n) :
    Predicts k extent (measure wanted name (pure n)) (make wanted name l (pure b)) :=
  predicts_make fun hw => predicts_pure (h hw)

theorem predicts_ofIndex (name : String) (i : Nat) :
    Predicts k extent (measure (i != 0) name (pure 2)) (ofIndex name i) :=
  predicts_bytes fun _ => rfl

theorem predicts_marker (name : String) (wanted : Bool) :
    Predicts k extent (measure wanted name (pure 0)) (marker name wanted) :=
  predicts_bytes fun _ => rfl

theorem predicts_ofRaw (as : List RawAttribute) :
    Predicts k extent (total (as.map measureRaw)) (ofRaw as) := by
  induction as with
  | nil => exact predicts_pure rfl
  | cons a as ih =>
    have hraw : Predicts k extent (measureRaw a) (do
        let nameIndex ← PoolM.utf8 a.name
        return [⟨nameIndex, a.content.length, Buffer.putList {} a.content⟩]) := by
      refine predicts_utf8 fun i => predicts_pure ?_
      simp [extent_singleton, weight, ← length_toList]
    have heq : ofRaw (a :: as) = (do
        let bs ← (do
          let nameIndex ← PoolM.utf8 a.name
          return [⟨nameIndex, a.content.length, Buffer.putList {} a.content⟩])
        let cs ← ofRaw as
        return bs ++ cs) := by
      simp only [ofRaw, bind_assoc, pure_bind, singleton_append]
    rw [heq]
    exact hraw.both ih extent_append

end Attribute

namespace Attribute

variable {k : List Text}

theorem predicts_ofAnnotations (store : AnnotationStore) (name : String)
    (ids : Array AnnotationId) :
    Predicts k extent (measureAnnotations store name ids) (ofAnnotations store name ids) := by
  refine predicts_bytes fun _ => ?_
  rw [toList_annotations, toList_empty, nil_append, store.length_annotationBytes]
  push_cast
  rfl

theorem predicts_ofAnnotationLists (store : AnnotationStore) (l : AnnotationLists) :
    Predicts k extent (measureAnnotationLists store l) (ofAnnotationLists store l) := by
  rw [ofAnnotationLists_eq]
  exact predicts_total <| .cons (predicts_ofAnnotations _ _ _) <|
    .cons (predicts_ofAnnotations _ _ _) <| .cons (predicts_ofAnnotations _ _ _) <|
    .cons (predicts_ofAnnotations _ _ _) .nil

theorem predicts_ofParameters (store : AnnotationStore) (name : String) {hidden : Nat}
    {lists : Option (Array (Array AnnotationId))} (h : ∀ ls ∈ lists, hidden ≤ ls.size) :
    Predicts k extent (measureParameters store name hidden lists)
      (ofParameters store name hidden lists) := by
  cases lists with
  | none => exact predicts_pure rfl
  | some ls =>
    refine predicts_bytes fun _ => ?_
    rw [parametersSize_eq store (h ls rfl),
      toList_foldl fun b ids => toList_annotations store ids b, toList_putByte, length_append]
    push_cast
    rfl

end Attribute

/-! ## Methods and fields -/

namespace Method

open Attribute

variable {k : List Text} {m : Method}

theorem ends_limit {c : Prop} [Decidable c] {cause : Cause} {args : List Value} {p q r : Pool}
    {u : Unit} (e : Ends (if c then PoolM.fail cause "ToByteArray" args else pure ()) p u q)
    (hq : q.failure = none) :
    ¬ c ∧ Ends (if c then PoolM.fail cause "ToByteArray" args else pure ()) r () r := by
  by_cases hc : c
  · rw [if_pos hc] at e
    obtain rfl := PoolM.ends_fail.1 e
    exact absurd hq (Pool.recordFailure_ne_none p _)
  · rw [if_neg hc]
    exact ⟨hc, ends_pure.2 ⟨rfl, rfl⟩⟩

instance adds_checkLimits (m : Method) : Keeps Pool.Adds m.checkLimits := by
  unfold checkLimits
  infer_instance

theorem ends_checkLimits {p q r : Pool} {u : Unit} (e : Ends m.checkLimits p u q)
    (hq : q.failure = none) : m.code.size ≤ limit ∧ Ends m.checkLimits r () r := by
  unfold checkLimits at e ⊢
  dsimp only at e ⊢
  obtain ⟨p₁, e₁, e⟩ := ends_when.1 e
  obtain ⟨p₂, e₂, e₃⟩ := ends_when.1 e
  have h₁ : p₁.Adds p₂ := e₂.keeps
  have h₂ : p₂.Adds q := e₃.keeps
  have hp₂ := h₂.grows.onward.no_failure hq
  obtain ⟨hsize, hr₁⟩ := ends_limit (r := r) e₁ (h₁.grows.onward.no_failure hp₂)
  obtain ⟨-, hr₂⟩ := ends_limit (r := r) e₂ hp₂
  obtain ⟨-, hr₃⟩ := ends_limit (r := r) e₃ hq
  exact ⟨Nat.le_of_not_lt hsize, ends_when.2 ⟨r, hr₁, ends_when.2 ⟨r, hr₂, hr₃⟩⟩⟩

theorem predicts_localTable (name : String) (rows : Array LocalRow) :
    Predicts k extent (Attribute.measure (!rows.isEmpty) name (pure (2 + 10 * rows.size)))
      (localTable name rows) := by
  rw [localTable]
  refine predicts_bytes fun _ => ?_
  rw [toList_localRows, length_append, length_localRows]
  simp

theorem predicts_lineTable (rows : Array LineRow) :
    Predicts k extent (Attribute.measure (!rows.isEmpty) "LineNumberTable"
      (pure (2 + 4 * rows.size))) (lineTable rows) := by
  rw [lineTable]
  refine predicts_bytes fun _ => ?_
  rw [toList_lineRows, length_append, length_lineRows]
  simp

theorem predicts_stackMapTable (m : Method) (major : Int) :
    Predicts k extent (Attribute.measure m.stackMap.isSome (stackMapName major)
      (pure (2 + (m.stackMap.getD {}).size))) (m.stackMapTable major) := by
  unfold stackMapTable
  cases m.stackMap with
  | none => exact predicts_pure rfl
  | some b =>
    refine predicts_bytes fun _ => ?_
    rw [toList_append, toList_putShort']
    simp

theorem predicts_tables (m : Method) (major : Int) :
    Predicts k extent (total (m.tableSizes major)) (gather (m.tableMakers major)) :=
  predicts_total <| .cons (predicts_localTable _ _) <| .cons (predicts_localTable _ _) <|
    .cons (predicts_lineTable _) <| .cons (predicts_stackMapTable _ _) <|
    .cons (predicts_ofRaw _) .nil

theorem weight_code (m : Method) (position : LabelId → Nat) (n : Nat) (as : List Attribute) :
    weight (Attribute.putAll (m.putHandlers position ((((Buffer.putShort {} m.maxStack).putShort
      m.maxLocals).putInt m.code.size).append m.code)) n as) =
        12 + m.code.size + 8 * m.handlers.size + extent as := by
  simp only [weight, extent, ← length_toList, Attribute.toList_putAll, toList_putHandlers,
    toList_append, toList_putInt, toList_putShort', toList_empty, length_append,
    length_bytes16, length_bytes32, length_nil, m.length_handlers]
  push_cast
  omega

theorem predicts_code (m : Method) (major : Int) (position : LabelId → Nat) :
    Predicts k extent (Attribute.measure true "Code" (do
        return 12 + m.code.size + 8 * m.handlers.size + (← total (m.tableSizes major))))
      (make true "Code" m.codeLength (m.codeContent major position)) :=
  predicts_make fun _ => (m.predicts_tables major).map (m.weight_code position _)

theorem predicts_codeAttribute (m : Method) (major : Int) (position : LabelId → Nat) :
    Predicts k extent (m.measureCode major) (m.codeAttribute major position) := by
  rw [codeAttribute_eq]
  unfold measureCode
  by_cases hsize : m.code.size = 0
  · rw [if_pos hsize, hsize]
    exact predicts_pure rfl
  · rw [if_neg hsize, bne_iff_ne.2 hsize]
    have hcode := m.predicts_code (k := k) major position
    have hadds := hcode.adds
    refine ⟨inferInstance, fun hk e hq hr => ?_⟩
    obtain ⟨_, p₁, e₁, e⟩ := e.bind
    have h₁ : Pool.Adds _ p₁ := e₁.keeps
    have h₂ : Pool.Adds p₁ _ := hadds.run _ _ _ e
    obtain ⟨hx, hy⟩ := hcode.settled (fun t ht => h₁.grows.onward.known _ (hk t ht)) e hq hr
    obtain ⟨-, hlimits⟩ := ends_checkLimits e₁ (h₂.grows.onward.no_failure hq)
    exact ⟨ends_bind.2 ⟨_, _, hlimits, hx⟩, hy⟩

theorem predicts_exceptionTable (is : List Nat) :
    Predicts k extent (Attribute.measure (!is.isEmpty) "Exceptions" (pure (2 + 2 * is.length)))
      (exceptionTable is) := by
  rw [exceptionTable]
  refine predicts_bytes fun _ => ?_
  rw [toList_exceptions, length_append, length_indices]
  simp

theorem predicts_parameterTable (m : Method) :
    Predicts k extent (Attribute.measure m.parameters.isSome "MethodParameters"
      (pure (1 + (m.parameters.getD {}).size))) m.parameterTable := by
  unfold parameterTable
  cases m.parameters with
  | none => exact predicts_pure rfl
  | some b =>
    refine predicts_bytes fun _ => ?_
    rw [toList_append, toList_putByte]
    simp [Int.add_comm]

theorem predicts_defaultAttribute (m : Method) (store : AnnotationStore) :
    Predicts k extent (Attribute.measure m.defaultValue.isSome "AnnotationDefault"
      (pure ((m.defaultValue.map store.sizeOf).getD 0 : Nat))) (m.defaultAttribute store) := by
  unfold defaultAttribute
  cases m.defaultValue with
  | none => exact predicts_pure rfl
  | some id => exact predicts_bytes fun _ => congrArg Int.ofNat (store.size_bytesOf id)

theorem predicts_parts (h : m.HidesWithin) (major : Int) (position : LabelId → Nat)
    (store : AnnotationStore) :
    Forall₂ (Predicts k extent) (m.partSizes major store)
      (m.partMakers major position store) :=
  .cons (predicts_codeAttribute _ _ _) <| .cons (predicts_exceptionTable _) <|
    .cons (predicts_marker _ _) <| .cons (predicts_marker _ _) <|
    .cons (predicts_make fun _ => predicts_utf8 fun _ => predicts_pure rfl) <|
    .cons (predicts_parameterTable _) <| .cons (predicts_defaultAttribute _ _) <|
    .cons (predicts_ofAnnotationLists _ _) <| .cons (predicts_ofParameters _ _ h.visible) <|
    .cons (predicts_ofParameters _ _ h.invisible) <| .cons (predicts_ofRaw _) .nil

end Method

theorem Method.size_le_of_measure {m : Method} {major n : Int} {store : AnnotationStore}
    {p q : Pool} (h : m.HidesWithin) (e : Ends (m.measure major store) p n q)
    (hq : q.failure = none) : m.code.size ≤ limit := by
  have hadds : ∀ x ∈ m.partSizes major store, Keeps Pool.Adds x := by
    intro x hx
    obtain ⟨y, -, hy⟩ := exists_of_forall₂_left (predicts_parts (k := []) h major id store) hx
    exact hy.adds
  obtain ⟨l, p₁, e₁, e⟩ := e.bind
  obtain ⟨-, rfl⟩ := e.pure
  obtain ⟨p₀, n₀, p₁, e₀, hp₁⟩ := Attribute.ends_of_mem_total hadds e₁ hq mem_cons_self
  by_cases hzero : m.code.size = 0
  · rw [hzero]
    exact Nat.zero_le _
  · rw [measureCode, if_neg hzero] at e₀
    obtain ⟨_, p', hlimits, e₀⟩ := e₀.bind
    have hrest := (m.predicts_code (k := []) major id).adds.run _ _ _ e₀
    exact (ends_checkLimits (r := p) hlimits (hrest.grows.onward.no_failure hp₁)).1

def Member.extent (m : Member) : Int := m.bytes.length

theorem Member.extent_mk (access nameIndex descIndex count : Nat) (attributes : List Attribute) :
    extent { access, nameIndex, descIndex, count, attributes } = 8 +
    Attribute.extent attributes := by
  simp only [extent, bytes, Attribute.extent, length_append, length_bytes16]
  push_cast
  omega

theorem Method.predicts_toMember {k : List Text} {m : Method} (h : m.HidesWithin) (major : Int)
    (position : LabelId → Nat) (store : AnnotationStore) :
    Predicts k Member.extent (m.measure major store) (m.toMember major position store) := by
  rw [toMember_eq]
  exact (Attribute.predicts_total (predicts_parts h major position store)).map fun as =>
    Member.extent_mk _ _ _ _ as

theorem Field.predicts_toMember {k : List Text} {f : Field} (h : f.signature ≠ [] → f.signature ∈ k)
    (major : Int) (store : AnnotationStore) :
    Predicts k Member.extent (f.measure major store) (f.toMember major store) := by
  have hsignature : Predicts k Attribute.extent
      (Attribute.measure (!f.signature.isEmpty) "Signature" (pure 2))
      (Attribute.ofSignature f.signature) := by
    refine Attribute.predicts_make fun hw => ?_
    have hmem : f.signature ∈ k := h (by simpa using hw)
    exact predicts_utf8_known hmem fun _ => predicts_pure rfl
  rw [toMember_eq]
  refine Predicts.map (Attribute.predicts_total ?_) fun as => Member.extent_mk _ _ _ _ as
  exact .cons (Attribute.predicts_ofIndex _ _) <| .cons (Attribute.predicts_marker _ _) <|
    .cons (Attribute.predicts_marker _ _) <| .cons hsignature <|
    .cons (Attribute.predicts_ofAnnotationLists _ _) <| .cons (Attribute.predicts_ofRaw _) .nil

/-! ## Classes -/

namespace ClassBody

open Attribute

variable {c : ClassBody} {s : Session} {k : List Text} {p q : Pool}

variable {n : Int}

/-- What the size of a class relies on. -/
structure Ready (c : ClassBody) (p : Pool) : Prop where
  signatures : ∀ f ∈ c.fields, f.signature ≠ [] → p.Knows (.utf8 f.signature)
  hidden : ∀ id ∈ c.written, (c.methodOf id).HidesWithin

def membersExtent (ms : List Member) : Int := (ms.flatMap Member.bytes).length

theorem membersExtent_cons (m : Member) (ms : List Member) :
    membersExtent (m :: ms) = m.extent + membersExtent ms := by
  simp [membersExtent, Member.extent]

theorem predicts_fieldMembers {major : Int} {fs : List Field}
    (h : ∀ f ∈ fs, f.signature ≠ [] → f.signature ∈ k) :
    Predicts k membersExtent (total (fs.map fun f => f.measure major c.store))
      (c.fieldMembers major fs) := by
  induction fs with
  | nil => exact predicts_pure rfl
  | cons f fs ih =>
    have hf := Field.predicts_toMember (h f mem_cons_self) major c.store
    exact hf.both (ih fun g hg => h g (mem_cons_of_mem _ hg)) membersExtent_cons

theorem predicts_methodMembers {ids : List MethodId}
    (h : ∀ id ∈ ids, (c.methodOf id).HidesWithin) :
    Predicts k membersExtent (total (ids.map fun id => (c.methodOf id).measure s.major c.store))
      (c.methodMembers s ids) := by
  induction ids with
  | nil => exact predicts_pure rfl
  | cons id ids ih =>
    have hm := Method.predicts_toMember (k := k) (h id mem_cons_self) s.major (positionIn s)
      c.store
    exact hm.both (ih fun id hid => h id (mem_cons_of_mem _ hid)) membersExtent_cons

theorem predicts_parts (c : ClassBody) (p : Pool) (major : Int) :
    Predicts k extent (total (c.partSizes p major)) (gather (c.partMakers p major)) := by
  refine predicts_total <| .cons (predicts_bytes fun _ => ?_) <| .cons (predicts_ofIndex _ _) <|
    .cons (predicts_ofIndex _ _) <| .cons (predicts_bytes fun _ => ?_) <|
    .cons (predicts_bytes fun _ => ?_) <| .cons (predicts_marker _ _) <|
    .cons (predicts_marker _ _) <| .cons (predicts_bytes fun _ => ?_) <|
    .cons (predicts_ofAnnotationLists _ _) <| .cons (predicts_ofRaw _) .nil
  all_goals simp only [toList_append, toList_putShort', toList_putList, toList_empty,
    nil_append, length_append, length_bytes16, length_toList]
  all_goals push_cast
  all_goals rfl

theorem settled_ownAttributes {major : Int} {r : Pool}
    (e : Ends (total (c.partSizes p major)) p n q) (hq : q.failure = none) (hr : r.Includes q) :
    Ends (total (c.partSizes r major)) r n r ∧
      ∃ as, Ends (c.ownAttributes major) r as r ∧ extent as = n := by
  have hparts : Predicts [] extent (total (c.partSizes p major)) (gather (c.partMakers p major)) :=
    c.predicts_parts p major
  have hp := hr.before (hparts.adds.run _ _ _ e)
  have hsizes : c.partSizes r major = c.partSizes p major := by
    simp only [partSizes, hp.count, hp.bootstraps]
  have hmakers : c.partMakers r major = c.partMakers p major := by
    simp only [partMakers, hp.count, hp.bootstraps]
  simp only [ends_ownAttributes_iff, hsizes, hmakers]
  exact hparts.settled (fun _ h => absurd h not_mem_nil) e hq hr

theorem size_write (f : ClassFile) (room : Int) :
    ((f.write room).size : Int) = 24 + 2 * f.interfaces.length + membersExtent f.fields +
      membersExtent f.methods + extent f.attributes + f.poolBytes.size := by
  simp only [membersExtent, extent, ← length_toList, ClassFile.toList_write, length_append,
    length_bytes16, length_bytes32, length_indices]
  push_cast
  omega

theorem ends_measure :
    Ends (c.measure s) p n q ↔ ∃ l p₁ m p₂ o,
      Ends (total (c.fields.toList.map fun f => f.measure s.major c.store)) p l p₁ ∧
      Ends (total (c.written.toList.map fun id => (c.methodOf id).measure s.major c.store)) p₁ m
      p₂ ∧ Ends (total (c.partSizes p₂ s.major)) p₂ o q ∧
      24 + 2 * c.interfaces.length + l + m + o + q.bytes.size = n := by
  simp only [measure, ends_bind, ends_pool_get, ends_pure]
  constructor
  · rintro ⟨l, p₁, e₁, m, p₂, e₂, _, _, ⟨rfl, rfl⟩, o, p₃, e₃, _, _, ⟨rfl, rfl⟩, rfl, rfl⟩
    exact ⟨l, p₁, m, p₂, o, e₁, e₂, e₃, rfl⟩
  · rintro ⟨l, p₁, m, p₂, o, e₁, e₂, e₃, rfl⟩
    exact ⟨l, p₁, e₁, m, p₂, e₂, _, _, ⟨rfl, rfl⟩, o, q, e₃, _, _, ⟨rfl, rfl⟩, rfl, rfl⟩

def signatures (c : ClassBody) : List Text := (c.fields.toList.map Field.signature).filter (· ≠ [])

theorem Ready.predicts_fields (h : c.Ready p) :
    (∀ t ∈ c.signatures, p.Knows (.utf8 t)) ∧
      Predicts c.signatures membersExtent
        (total (c.fields.toList.map fun f => f.measure s.major c.store))
        (c.fieldMembers s.major c.fields.toList) := by
  constructor
  · intro t ht
    obtain ⟨ht, hne⟩ := mem_filter.1 ht
    obtain ⟨f, hf, rfl⟩ := mem_map.1 ht
    exact h.signatures f (Array.mem_toList_iff.1 hf) (of_decide_eq_true hne)
  · exact predicts_fieldMembers fun f hf hne =>
      mem_filter.2 ⟨mem_map_of_mem hf, decide_eq_true hne⟩

theorem Ready.predicts_methods (h : c.Ready p) :
    Predicts k membersExtent
      (total (c.written.toList.map fun id => (c.methodOf id).measure s.major c.store))
      (c.methodMembers s c.written.toList) :=
  predicts_methodMembers fun id hid => h.hidden id (Array.mem_toList_iff.1 hid)

theorem Ready.adds_measure (h : c.Ready p) (e : Ends (c.measure s) p n q) : p.Adds q := by
  obtain ⟨_, _, _, p₂, _, e₁, e₂, e₃, -⟩ := ends_measure.1 e
  have h₁ := h.predicts_fields.2.adds.run _ _ _ e₁
  have h₂ := (h.predicts_methods (k := [])).adds.run _ _ _ e₂
  have h₃ := (c.predicts_parts (k := []) p₂ s.major).adds.run _ _ _ e₃
  exact Steps.trans h₁ (Steps.trans h₂ h₃)

theorem Ready.size_le (h : c.Ready p) (e : Ends (c.measure s) p n q) (hq : q.failure = none) :
    ∀ id ∈ c.written, (c.methodOf id).code.size ≤ Method.limit := by
  intro id hid
  obtain ⟨_, p₁, _, p₂, _, -, e₂, e₃, -⟩ := ends_measure.1 e
  have h₃ := (c.predicts_parts (k := []) p₂ s.major).adds.run _ _ _ e₃
  have hadds : ∀ x ∈ c.written.toList.map fun id => (c.methodOf id).measure s.major c.store,
      Keeps Pool.Adds x := by
    intro x hx
    obtain ⟨id, hid, rfl⟩ := mem_map.1 hx
    exact (Method.predicts_toMember (k := []) (h.hidden id (Array.mem_toList_iff.1 hid)) s.major
      (positionIn s) c.store).adds
  obtain ⟨_, _, _, e, hq⟩ := ends_of_mem_total hadds e₂ (h₃.grows.onward.no_failure hq)
    (mem_map_of_mem (Array.mem_toList_iff.2 hid))
  exact Method.size_le_of_measure (h.hidden id hid) e hq

/-- A class that was sized without a failure is written on the pool that is there then, and its size
is the one that was worked out. -/
theorem Ready.written_measure (h : c.Ready p) (e : Ends (c.measure s) p n q)
    (hq : q.failure = none) : Ends (c.measure s) q n q ∧ ∃ file, Ends (c.toClassFile s) q file q ∧
      ((file.write n).size : Int) = n := by
  obtain ⟨_, p₁, _, p₂, _, e₁, e₂, e₃, rfl⟩ := ends_measure.1 e
  obtain ⟨hk, hfields⟩ := h.predicts_fields (s := s)
  have hmethods := h.predicts_methods (k := []) (s := s)
  have h₁ := hfields.adds.run _ _ _ e₁
  have h₂ := hmethods.adds.run _ _ _ e₂
  have h₃ := (c.predicts_parts (k := []) p₂ s.major).adds.run _ _ _ e₃
  have hp₂ := h₃.grows.onward.no_failure hq
  have hr := Pool.Includes.refl q
  obtain ⟨hx₁, fs, hy₁, rfl⟩ := hfields.settled hk e₁ (h₂.grows.onward.no_failure hp₂)
    ((hr.before h₃).before h₂)
  obtain ⟨hx₂, ms, hy₂, rfl⟩ := hmethods.settled (fun _ h => absurd h not_mem_nil) e₂ hp₂
    (hr.before h₃)
  obtain ⟨hx₃, as, hy₃, rfl⟩ := settled_ownAttributes e₃ hq hr
  refine ⟨ends_measure.2 ⟨_, q, _, q, _, hx₁, hx₂, hx₃, rfl⟩, ?_⟩
  have hfile : Ends (c.toClassFile s) q _ q :=
    ends_bind.2 ⟨_, _, ends_pool_get.2 ⟨rfl, rfl⟩, ends_bind.2 ⟨_, _, hy₁,
      ends_bind.2 ⟨_, _, hy₂, ends_bind.2 ⟨_, _, hy₃, ends_pure.2 ⟨rfl, rfl⟩⟩⟩⟩⟩
  exact ⟨_, hfile, size_write _ _⟩

end ClassBody

end ClassAssembler
