import ClassAssembler.Hierarchy.Basic
import Mathlib.Order.Bounds.Basic
import Mathlib.Order.Iterate
import Mathlib.Data.Finset.Basic
import Mathlib.Tactic

/-!
# The order of the verifier's types

A class tree has `java/lang/Object` at its root, and a class lies below its ancestors.  The
verifier's types are ordered over the classes: null lies below all references, an array is covariant
in the class of its elements, an array lies below the object arrays of fewer dimensions, and
everything lies below the top type.  An array of a primitive type counts one dimension less when it
is seen as an array of objects.

Any two types have a least upper bound as soon as any two classes have one.  The lemmas `isLUB_...`
say which it is.
-/

namespace ClassAssembler

/-! ## Class trees -/

/-- A finite tree of classes.  The root counts as its own superclass. -/
structure ClassTree where
  classes : Finset Text
  super : Text → Text
  root_mem : objectName ∈ classes
  super_root : super objectName = objectName
  super_mem : ∀ a ∈ classes, super a ∈ classes
  rooted : ∀ a ∈ classes, ∃ n, super^[n] a = objectName

namespace ClassTree

@[ext] structure Class (tree : ClassTree) where
  name : Text
  mem : name ∈ tree.classes

variable {tree : ClassTree}

theorem iterate_super_root (n : Nat) : tree.super^[n] objectName = objectName :=
  Function.iterate_fixed tree.super_root n

theorem eq_root_of_iterate {a : Text} {n : Nat} (ha : a ∈ tree.classes) (hn : n ≠ 0)
    (hcycle : tree.super^[n] a = a) : a = objectName := by
  obtain ⟨k, hk⟩ := tree.rooted a ha
  have hround : tree.super^[n * k] a = a := by
    rw [Function.iterate_mul]
    exact Function.iterate_fixed hcycle k
  have hle : k ≤ n * k := Nat.le_mul_of_pos_left k (Nat.pos_of_ne_zero hn)
  have htop : tree.super^[n * k] a = objectName := by
    rw [← Nat.sub_add_cancel hle, Function.iterate_add_apply, hk, iterate_super_root]
  rw [← hround, htop]

instance : PartialOrder tree.Class where
  le a b := ∃ n, tree.super^[n] a.name = b.name
  le_refl a := ⟨0, rfl⟩
  le_trans a b c := by
    rintro ⟨n, hn⟩ ⟨m, hm⟩
    refine ⟨m + n, ?_⟩
    rw [Function.iterate_add_apply, hn, hm]
  le_antisymm a b := by
    rintro ⟨n, hn⟩ ⟨m, hm⟩
    by_cases hzero : n = 0
    · subst hzero
      exact Class.ext hn
    · have hround : tree.super^[m + n] a.name = a.name := by
        rw [Function.iterate_add_apply, hn, hm]
      have hroot : a.name = objectName := eq_root_of_iterate a.mem (by omega) hround
      apply Class.ext
      rw [← hn, hroot, iterate_super_root]

instance : OrderTop tree.Class where
  top := ⟨objectName, tree.root_mem⟩
  le_top a := tree.rooted a.name a.mem

theorem le_iff_of_depth {depth : Nat}
    (hdepth : ∀ a ∈ tree.classes, tree.super^[depth] a = objectName) {a b : tree.Class} :
    a ≤ b ↔ ∃ n ∈ List.range (depth + 1), tree.super^[n] a.name = b.name := by
  constructor
  · rintro ⟨n, hn⟩
    by_cases hle : n ≤ depth
    · exact ⟨n, by simpa using Nat.lt_succ_of_le hle, hn⟩
    · have htop : b.name = objectName := by
        rw [← hn, ← Nat.sub_add_cancel (Nat.le_of_not_le hle), Function.iterate_add_apply,
          hdepth a.name a.mem, iterate_super_root]
      exact ⟨depth, by simp, (hdepth a.name a.mem).trans htop.symm⟩
  · rintro ⟨n, -, hn⟩
    exact ⟨n, hn⟩

end ClassTree

/-! ## Types and their order -/

inductive Primitive where
  | boolean | byte | char | short | integer | float | long | double
deriving DecidableEq, Repr

/-- The types that the verifier tells apart, over some classes. -/
inductive VerifierType (C : Type) where
  | top
  | integer
  | float
  | long
  | double
  | null
  | uninitializedThis
  /-- An object of a class without a constructor call, by the offset of its creation. -/
  | fresh (name : Text) (offset : Int)
  | object (dims : Nat) (c : C)
  /-- An array of a primitive type with one dimension, and more. -/
  | primitive (more : Nat) (element : Primitive)

namespace VerifierType

variable {C : Type} [PartialOrder C] [OrderTop C] {a b c : C} {d e k : Nat} {p q : Primitive}
  {x y z : VerifierType C}

/-- A value of one type can be used as a value of another one. -/
inductive Below : VerifierType C → VerifierType C → Prop
  | refl (x : VerifierType C) : Below x x
  | top (x : VerifierType C) : Below x .top
  | nullObject (d : Nat) (c : C) : Below .null (.object d c)
  | nullPrimitive (k : Nat) (p : Primitive) : Below .null (.primitive k p)
  | covariant (d : Nat) {a b : C} (h : a ≤ b) : Below (.object d a) (.object d b)
  | fewer {d e : Nat} (h : e < d) (a : C) : Below (.object d a) (.object e ⊤)
  | boxed {k e : Nat} (h : e ≤ k) (p : Primitive) : Below (.primitive k p) (.object e ⊤)

theorem below_object_iff :
    Below x (.object e b) ↔ x = .null ∨ (∃ a, x = .object e a ∧ a ≤ b) ∨
      (∃ d a, x = .object d a ∧ e < d ∧ b = ⊤) ∨ ∃ k p, x = .primitive k p ∧ e ≤ k ∧ b = ⊤ := by
  constructor
  · intro h
    cases h with
    | refl => exact .inr (.inl ⟨b, rfl, le_rfl⟩)
    | nullObject => exact .inl rfl
    | @covariant _ a _ h => exact .inr (.inl ⟨a, rfl, h⟩)
    | @fewer d _ h a => exact .inr (.inr (.inl ⟨d, a, rfl, h, rfl⟩))
    | @boxed k _ h p => exact .inr (.inr (.inr ⟨k, p, rfl, h, rfl⟩))
  · rintro (rfl | ⟨a, rfl, h⟩ | ⟨d, a, rfl, h, rfl⟩ | ⟨k, p, rfl, h, rfl⟩)
    · exact .nullObject e b
    · exact .covariant e h
    · exact .fewer h a
    · exact .boxed h p

theorem below_primitive_iff : Below x (.primitive k p) ↔ x = .null ∨ x = .primitive k p := by
  constructor
  · intro h
    cases h with
    | refl => exact .inr rfl
    | nullPrimitive => exact .inl rfl
  · rintro (rfl | rfl)
    · exact .nullPrimitive k p
    · exact .refl _

theorem Below.trans (h : Below x y) (h' : Below y z) : Below x z := by
  cases h' with
  | refl => exact h
  | top => exact .top x
  | nullObject d c =>
    cases h
    exact .nullObject d c
  | nullPrimitive k p =>
    cases h
    exact .nullPrimitive k p
  | @covariant d a b hab =>
    rw [below_object_iff] at h ⊢
    rcases h with h | ⟨a', h, ha⟩ | ⟨d', a', h, hd, rfl⟩ | ⟨k, p, h, hd, rfl⟩
    · exact .inl h
    · exact .inr (.inl ⟨a', h, ha.trans hab⟩)
    · exact .inr (.inr (.inl ⟨d', a', h, hd, top_le_iff.1 hab⟩))
    · exact .inr (.inr (.inr ⟨k, p, h, hd, top_le_iff.1 hab⟩))
  | @fewer d e hde a =>
    rw [below_object_iff] at h ⊢
    rcases h with h | ⟨a', h, ha⟩ | ⟨d', a', h, hd, -⟩ | ⟨k, p, h, hd, -⟩
    · exact .inl h
    · exact .inr (.inr (.inl ⟨d, a', h, hde, rfl⟩))
    · exact .inr (.inr (.inl ⟨d', a', h, hde.trans hd, rfl⟩))
    · exact .inr (.inr (.inr ⟨k, p, h, hde.le.trans hd, rfl⟩))
  | @boxed k e hke p =>
    rcases below_primitive_iff.1 h with rfl | rfl
    · exact .nullObject e ⊤
    · exact .boxed hke p

theorem Below.antisymm (h : Below x y) (h' : Below y x) : x = y := by
  cases h with
  | refl => rfl
  | top =>
    cases h' with
    | refl => rfl
    | top => rfl
  | nullObject => cases h'
  | nullPrimitive => cases h'
  | covariant d hab =>
    cases h' with
    | refl => rfl
    | covariant _ hba => rw [hab.antisymm hba]
    | fewer hlt => exact absurd hlt (lt_irrefl d)
  | fewer hlt =>
    cases h' with
    | refl => rfl
    | covariant => exact absurd hlt (lt_irrefl _)
    | fewer hlt' => exact absurd (hlt.trans hlt') (lt_irrefl _)
  | boxed => cases h'

instance : PartialOrder (VerifierType C) where
  le := Below
  le_refl := .refl
  le_trans _ _ _ := Below.trans
  le_antisymm _ _ := Below.antisymm

instance : OrderTop (VerifierType C) where
  top := .top
  le_top := .top

theorem le_object_iff :
    x ≤ .object e b ↔ x = .null ∨ (∃ a, x = .object e a ∧ a ≤ b) ∨
      (∃ d a, x = .object d a ∧ e < d ∧ b = ⊤) ∨ ∃ k p, x = .primitive k p ∧ e ≤ k ∧ b = ⊤ :=
  below_object_iff

theorem le_primitive_iff : x ≤ .primitive k p ↔ x = .null ∨ x = .primitive k p :=
  below_primitive_iff

/-! ## References -/

def IsReference : VerifierType C → Prop
  | object .. | primitive .. => True
  | _ => False

/-- The dimensions of a reference that is seen as an array of objects. -/
def objectDims : VerifierType C → Nat
  | object d _ => d
  | primitive k _ => k
  | _ => 0

theorem null_le (hx : x.IsReference) : .null ≤ x := by
  cases x with
  | object d c => exact .nullObject d c
  | primitive k p => exact .nullPrimitive k p
  | _ => cases hx

theorem le_objects_iff (hx : x.IsReference) : x ≤ .object e ⊤ ↔ e ≤ x.objectDims := by
  rw [le_object_iff]
  cases x with
  | object d a =>
    simp only [reduceCtorEq, false_or, object.injEq, and_true, objectDims]
    constructor
    · rintro (⟨a', ⟨rfl, -⟩, -⟩ | ⟨d', a', ⟨rfl, -⟩, hlt⟩ | ⟨k, p, h, -⟩)
      · exact le_rfl
      · exact hlt.le
      · exact h.elim
    · intro hle
      rcases hle.eq_or_lt with rfl | hlt
      · exact .inl ⟨a, ⟨rfl, rfl⟩, le_top⟩
      · exact .inr (.inl ⟨d, a, ⟨rfl, rfl⟩, hlt⟩)
  | primitive k p => simp [objectDims]
  | _ => cases hx

theorem isReference_of_le (hx : x.IsReference) (h : x ≤ z) : z = .top ∨ z.IsReference := by
  cases h with
  | refl => exact .inr hx
  | top => exact .inl rfl
  | nullObject => exact .inr trivial
  | nullPrimitive => exact .inr trivial
  | covariant => exact .inr trivial
  | fewer => exact .inr trivial
  | boxed => exact .inr trivial

theorem eq_or_eq_top_of_le (hnull : x ≠ .null) (hx : ¬ x.IsReference) (h : x ≤ z) :
    z = x ∨ z = .top := by
  cases h with
  | refl => exact .inl rfl
  | top => exact .inr rfl
  | nullObject => exact absurd rfl hnull
  | nullPrimitive => exact absurd rfl hnull
  | covariant => exact absurd trivial hx
  | fewer => exact absurd trivial hx
  | boxed => exact absurd trivial hx

theorem eq_or_isReference_of_null_le (h : .null ≤ z) : z = .null ∨ z = .top ∨ z.IsReference := by
  cases h with
  | refl => exact .inl rfl
  | top => exact .inr (.inl rfl)
  | nullObject => exact .inr (.inr trivial)
  | nullPrimitive => exact .inr (.inr trivial)

/-! ## Least upper bounds -/

theorem isLUB_pair_iff : IsLUB {x, y} z ↔ (x ≤ z ∧ y ≤ z) ∧ ∀ w, x ≤ w → y ≤ w → z ≤ w := by
  simp [IsLUB, IsLeast, upperBounds, lowerBounds]

theorem isLUB_of_le (h : x ≤ y) : IsLUB {x, y} y :=
  isLUB_pair_iff.2 ⟨⟨h, le_rfl⟩, fun _ _ hw => hw⟩

theorem isLUB_top (h : ∀ w, x ≤ w → y ≤ w → w = .top) : IsLUB {x, y} .top := by
  rw [isLUB_pair_iff]
  refine ⟨⟨.top x, .top y⟩, ?_⟩
  intro w hx hy
  rw [h w hx hy]

theorem isLUB_covariant (d : Nat) (h : IsLUB {a, b} c) :
    IsLUB {object d a, object d b} (object d c) := by
  have hab : a ≤ c ∧ b ≤ c := ⟨h.1 (by simp), h.1 (by simp)⟩
  rw [isLUB_pair_iff]
  refine ⟨⟨.covariant d hab.1, .covariant d hab.2⟩, ?_⟩
  intro w ha hb
  cases ha with
  | refl =>
    cases hb with
    | refl => exact .covariant d (h.2 (by simp [upperBounds]))
    | covariant _ hb => exact .covariant d (h.2 (by simp [upperBounds, hb]))
    | fewer hlt => exact absurd hlt (lt_irrefl d)
  | top => exact .top _
  | @covariant _ _ a' ha =>
    cases hb with
    | refl => exact .covariant d (h.2 (by simp [upperBounds, ha]))
    | covariant _ hb => exact .covariant d (h.2 (by simp [upperBounds, ha, hb]))
    | fewer hlt => exact absurd hlt (lt_irrefl d)
  | fewer hlt => exact .fewer hlt c

theorem eq_objects_of_le (hx : x.IsReference) (hy : y.IsReference) (hne : x ≠ y)
    (hdims : ∀ d a b, x = .object d a → y ≠ .object d b) (hxz : x ≤ z) (hyz : y ≤ z) :
    z = .top ∨ ∃ e, z = .object e ⊤ := by
  cases z with
  | top => exact .inl rfl
  | object e b =>
    refine .inr ⟨e, ?_⟩
    rcases le_object_iff.1 hxz with rfl | ⟨a, hxa, -⟩ | ⟨d, a, -, -, rfl⟩ | ⟨k, p, -, -, rfl⟩
    · cases hx
    · rcases le_object_iff.1 hyz with rfl | ⟨a', hya, -⟩ | ⟨d, a', -, -, rfl⟩ | ⟨k, p, -, -, rfl⟩
      · cases hy
      · exact absurd hya (hdims e a a' hxa)
      · rfl
      · rfl
    · rfl
    · rfl
  | primitive k p =>
    rcases le_primitive_iff.1 hxz with rfl | hxz
    · cases hx
    rcases le_primitive_iff.1 hyz with rfl | hyz
    · cases hy
    exact absurd (hxz.trans hyz.symm) hne
  | _ =>
    rcases isReference_of_le hx hxz with hz | hz
    · cases hz
    · cases hz

theorem isLUB_objects (hx : x.IsReference) (hy : y.IsReference) (hne : x ≠ y)
    (hdims : ∀ d a b, x = .object d a → y ≠ .object d b) :
    IsLUB {x, y} (object (min x.objectDims y.objectDims) ⊤) := by
  rw [isLUB_pair_iff]
  refine ⟨⟨(le_objects_iff hx).2 (min_le_left _ _), (le_objects_iff hy).2 (min_le_right _ _)⟩, ?_⟩
  intro w hxw hyw
  rcases eq_objects_of_le hx hy hne hdims hxw hyw with rfl | ⟨e, rfl⟩
  · exact .top _
  · rw [le_objects_iff hx] at hxw
    rw [le_objects_iff hy] at hyw
    have hobject : (object (min x.objectDims y.objectDims) (⊤ : C)).IsReference := trivial
    rw [le_objects_iff hobject]
    exact le_min hxw hyw

theorem isLUB_unrelated (hnull : x ≠ .null) (hx : ¬ x.IsReference) (hne : x ≠ y) :
    IsLUB {x, y} .top := by
  apply isLUB_top
  intro w hxw hyw
  rcases eq_or_eq_top_of_le hnull hx hxw with rfl | rfl
  · by_cases hynull : y = .null
    · subst hynull
      rcases eq_or_isReference_of_null_le hyw with rfl | rfl | hw
      · exact absurd rfl hnull
      · rfl
      · exact absurd hw hx
    · by_cases hy : y.IsReference
      · rcases isReference_of_le hy hyw with rfl | hw
        · rfl
        · exact absurd hw hx
      · rcases eq_or_eq_top_of_le hynull hy hyw with rfl | rfl
        · exact absurd rfl hne
        · rfl
  · rfl

theorem isLUB_insert {s : Set (VerifierType C)} (hs : IsLUB s x) (hz : IsLUB {x, y} z) :
    IsLUB (insert y s) z := by
  rw [isLUB_pair_iff] at hz
  obtain ⟨⟨hxz, hyz⟩, hleast⟩ := hz
  constructor
  · intro w hw
    rcases Set.mem_insert_iff.1 hw with rfl | hw
    · exact hyz
    · exact (hs.1 hw).trans hxz
  · intro w hw
    apply hleast w
    · apply hs.2
      intro v hv
      exact hw (Set.mem_insert_of_mem y hv)
    · exact hw (Set.mem_insert y s)

end VerifierType

end ClassAssembler
