import Mathlib
import ClassAssembler.Proofs.FrameItems
import ClassAssembler.Proofs.MergedTypes
import ClassAssembler.Proofs.PoolSharing

/-!
# Arrays in frames

A slot type counts the dimensions of an array modulo sixteen, and a merge takes counts from eight on
for negative. So an array keeps its name in a stack map up to fifteen dimensions, and two arrays are
merged into a type above both up to seven (`FieldType.arrays_survive`).  Arrays whose dimensions
differ by sixteen have the same slot type.
-/

namespace ClassAssembler

open JavaType SlotType

def Primitive.element : Primitive → ElementType
  | boolean => .boolean
  | byte => .byte
  | char => .char
  | short => .short
  | integer => .int
  | float => .float
  | double => .double
  | long => .long

theorem Primitive.slot_element (p : Primitive) : p.element.slot = pure ⟨0, p.base⟩ := by
  cases p <;> rfl

namespace FieldType

variable {tree : ClassTree} {p : Pool} {s : Session} {a b : FieldType}
  {x y : VerifierType tree.Class}

/-- The array types over the classes of a tree, as the verifier knows them. -/
inductive IsArray (tree : ClassTree) : FieldType → VerifierType tree.Class → Prop
  | object {n : Nat} {c : tree.Class} (ends : semicolon ∉ c.name) :
    IsArray tree ⟨n + 1, .object c.name ends⟩ (.object (n + 1) c)
  | primitive {n : Nat} (p : Primitive) : IsArray tree ⟨n + 1, p.element⟩ (.primitive n p)

theorem IsArray.item_eq (h : a.IsArray tree x) : a.item = .name a.desc := by
  cases h <;> rfl

theorem ofField_add_sixteen (n : Nat) (e : ElementType) :
    ofField (⟨n + 1 + 16, e⟩ : FieldType).desc = ofField (⟨n + 1, e⟩ : FieldType).desc := by
  have harray (t : SlotType) : array (n + 1 + 16) t = array (n + 1) t := by
    have hmod : (t.dims + (n + 1 + 16)) % 16 = (t.dims + (n + 1)) % 16 := by omega
    exact congrArg (SlotType.mk · t.base) hmod
  rw [ofField_array n e]
  refine (ofField_array (n + 16) e).trans ?_
  simp only [harray]

theorem IsArray.exists_ends_ofField (h : a.IsArray tree x) (hs : tree.Known s)
    (hdims : a.dims ≤ 15) :
    ∃ t s', Ends (ofField a.desc) (p, s) t (p, s') ∧ tree.Learns s s' ∧ t.dims ≠ 0 ∧
      (a.dims ≤ 7 → Means s'.types t x) := by
  cases h with
  | @object n c ends =>
    obtain ⟨i, s', hobject, hlearns, hi⟩ := SessionM.exists_ends_objectType (p := p) hs c
    refine ⟨⟨n + 1, .object i⟩, s', ?_, hlearns, Nat.succ_ne_zero n, fun hle => .object hle hi⟩
    rw [ofField_array, ← array_of_le hdims]
    exact ends_bind.2 ⟨_, _, hobject, ends_pure.2 ⟨rfl, rfl⟩⟩
  | @primitive n q =>
    refine ⟨⟨n + 1, q.base⟩, s, ?_, .refl hs, Nat.succ_ne_zero n, fun hle => .primitive hle q⟩
    rw [ofField_array, ← array_of_le hdims, q.slot_element]
    exact ends_bind.2 ⟨_, _, ends_pure.2 ⟨rfl, rfl⟩, ends_pure.2 ⟨rfl, rfl⟩⟩

theorem exists_ends_toItem {t : SlotType} {i : FrameItem Int} (ht : t.dims ≠ 0)
    (hitem : t.item? s.types = some i) : ∃ j q, Ends t.toItem (p, s) j (q, s) := by
  obtain ⟨d, hdesc⟩ : ∃ d, Ends t.arrayDescriptor (p, s) d (p, s) := by
    rw [item?, if_neg ht] at hitem
    unfold arrayDescriptor
    dsimp only
    split at hitem
    next n hbase =>
      rw [hbase]
      exact ⟨_, ends_pure.2 ⟨rfl, rfl⟩⟩
    next j hbase =>
      obtain ⟨e, he, -⟩ := Option.map_eq_some_iff.1 hitem
      rw [hbase]
      have hname : Ends (className j) (p, s) e.name (p, s) :=
        ends_bind.2 ⟨e, _, SessionM.ends_typeAt_of_at? he, ends_pure.2 ⟨rfl, rfl⟩⟩
      exact ⟨_, ends_bind.2 ⟨_, _, hname, ends_pure.2 ⟨rfl, rfl⟩⟩⟩
    next => cases hitem
  obtain ⟨k, q, hk⟩ := Registration.returns_classRef d p
  rw [toItem, if_neg ht]
  refine ⟨.object k, q, ends_bind.2 ⟨d, _, hdesc,
    ends_bind.2 ⟨k, (q, s), ?_, ends_pure.2 ⟨rfl, rfl⟩⟩⟩⟩
  exact ends_lift.2 ⟨hk, rfl⟩

/-- In a session that knows the classes of two arrays, an array type with at most fifteen dimensions
is written as an object whose class has the descriptor as its name, and two with at most seven
dimensions are merged into a type above both.  A descriptor with sixteen dimensions more has the
same slot type, so it cannot be written. -/
theorem arrays_survive (hs : tree.Known s) (hp : p.Wf) (ha : a.IsArray tree x)
    (hb : b.IsArray tree y) :
    (a.dims ≤ 15 → ∃ t s' i q, Ends (ofField a.desc) (p, s) t (p, s') ∧
      Ends t.toItem (p, s') i (q, s') ∧
      (q.failure = none → ∃ k, i = .object k ∧ q.at? k = some (.classRef a.desc))) ∧
    (a.dims ≤ 7 → b.dims ≤ 7 → ∃ t u r s' z,
      Ends (do
        let t ← ofField a.desc
        let u ← ofField b.desc
        return (t, u, ← mergeInto t u)) (p, s) (t, u, r) (p, s') ∧
      Means s'.types (r.getD u) z ∧ x ≤ z ∧ y ≤ z) ∧
    ofField (⟨a.dims + 16, a.element⟩ : FieldType).desc = ofField a.desc := by
  refine ⟨fun hdims => ?_, fun hx hy => ?_, ?_⟩
  · obtain ⟨t, s', hfield, hlearns, ht, -⟩ := ha.exists_ends_ofField (p := p) hs hdims
    have hitem : t.item? s'.types = some (.name a.desc) :=
      ha.item_eq ▸ item_ofField hdims hs.faithful.indexed.wf hfield
    obtain ⟨i, q, hi⟩ := exists_ends_toItem (p := p) ht hitem
    refine ⟨t, s', i, q, hfield, hi, fun hq => ?_⟩
    cases stands_toItem hp hq (Steps.refl s'.types) hitem hi with
    | object hk _ => exact ⟨_, rfl, hk⟩
  · obtain ⟨t, s₁, ht, hlearns₁, -, htx⟩ := ha.exists_ends_ofField (p := p) hs (by omega)
    obtain ⟨u, s₂, hu, hlearns₂, -, huy⟩ := hb.exists_ends_ofField (p := p) hlearns₁.known
      (by omega)
    obtain ⟨r, s₃, z, hr, -, hz, hmeans⟩ :=
      joins_mergeInto (p := p) hlearns₂.known ((htx hx).mono hlearns₂.grows) (huy hy)
    refine ⟨t, u, r, s₃, z, ?_, hmeans, hz.1 (by simp), hz.1 (by simp)⟩
    simp only [ends_bind, ends_pure]
    exact ⟨t, _, ht, u, _, hu, r, _, hr, rfl, rfl⟩
  · cases ha with
    | object => exact ofField_add_sixteen _ _
    | primitive => exact ofField_add_sixteen _ _

/-- An array of seven dimensions over a class and one over numbers, in the session of
two siblings. -/
theorem arrays_survive_siblings : ∃ t u r s', ∃ z : VerifierType MergedSlots.siblings.Class,
    Ends (do
      let t ← ofField (⟨7, .object [97] (by decide)⟩ : FieldType).desc
      let u ← ofField (⟨3, .int⟩ : FieldType).desc
      return (t, u, ← mergeInto t u)) (({} : Pool), MergedSlots.siblingSession) (t, u, r)
        (({} : Pool), s') ∧
    Means s'.types (r.getD u) z ∧
    .object 7 ⟨[97], by decide⟩ ≤ z ∧ .primitive 2 .integer ≤ z := by
  have hobject : (⟨7, .object [97] (by decide)⟩ : FieldType).IsArray MergedSlots.siblings
      (.object 7 ⟨[97], by decide⟩) := .object (n := 6) (c := ⟨[97], by decide⟩) (by decide)
  have hprimitive : (⟨3, .int⟩ : FieldType).IsArray MergedSlots.siblings (.primitive 2 .integer) :=
    .primitive .integer
  obtain ⟨-, hmerge, -⟩ := arrays_survive MergedSlots.known_siblings Pool.wf_empty hobject
    hprimitive
  exact hmerge (by decide) (by decide)

end FieldType

end ClassAssembler
