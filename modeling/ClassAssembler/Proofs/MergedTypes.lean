import Mathlib
import ClassAssembler.Proofs.TypeTables

/-!
# Merging types

`SlotType.Means` ties the packed types of frame slots to the types of the verifier.  Merging a type
into a slot gives the least upper bound of both (`SlotType.joins_mergeInto`), so types that are
merged into a slot one after another leave the least upper bound of all of them in it, whatever
their order and however often each of them comes.
-/

namespace ClassAssembler

open VerifierType List SlotType

def Primitive.base : Primitive → SlotBase
  | boolean => .basic 9
  | byte => .basic 10
  | char => .basic 11
  | short => .basic 12
  | integer => .basic 1
  | float => .basic 2
  | double => .basic 3
  | long => .basic 4

theorem Primitive.base_inj {p q : Primitive} (h : p.base = q.base) : p = q := by
  revert h
  cases p <;> cases q <;> decide

theorem Primitive.base_ne_object (p : Primitive) (i : Nat) : p.base ≠ .object i := by
  cases p <;> exact SlotBase.noConfusion

theorem Primitive.family_base (p : Primitive) : p.base.family = 0x10 := by
  cases p <;> rfl

theorem Primitive.base_ne_null (p : Primitive) : p.base ≠ null.base := by
  cases p <;> decide

namespace SlotType

variable {d i : Nat}

/-- A slot holds a type of the verifier.  Arrays have at most seven dimensions. -/
inductive Means {tree : ClassTree} (types : TypeTable) : SlotType → VerifierType tree.Class → Prop
  | top : Means types top .top
  | integer : Means types integer .integer
  | float : Means types float .float
  | long : Means types long .long
  | double : Means types double .double
  | null : Means types null .null
  | uninitializedThis : Means types uninitializedThis .uninitializedThis
  | fresh {i : Nat} {name : Text} {offset : Int32} (h : types.at? i = some (.fresh name offset)) :
    Means types (fresh i) (.fresh name offset.toInt)
  | object {i d : Nat} {c : tree.Class} (hd : d ≤ 7) (h : types.at? i = some (.named c.name)) :
    Means types ⟨d, .object i⟩ (.object d c)
  | primitive {k : Nat} (hk : k < 7) (p : Primitive) : Means types ⟨k + 1, p.base⟩ (.primitive k p)

variable {tree : ClassTree} {types types' : TypeTable} {t u : SlotType}
  {x y z : VerifierType tree.Class} {p : Pool} {s : Session}

theorem Means.mono (h : Means types t x) (hgrows : types.Grows types') : Means types' t x := by
  cases h with
  | fresh hi => exact .fresh (hgrows.at? hi)
  | object hd hi => exact .object hd (hgrows.at? hi)
  | primitive hk q => exact .primitive hk q
  | _ => constructor

theorem Means.ne_unset (h : Means types t x) : t ≠ unset := by
  cases h with
  | primitive hk q => cases q <;> simp [unset, Primitive.base]
  | _ => simp [unset, SlotType.top, SlotType.integer, SlotType.float, SlotType.long,
      SlotType.double, SlotType.null, SlotType.uninitializedThis, SlotType.fresh]

theorem Means.unique (h : Means types t x) (h' : Means types t y) : x = y := by
  cases h with
  | fresh hi =>
    cases h' with
    | fresh hj =>
      rw [hi] at hj
      cases hj
      rfl
  | @object i d c hd hi =>
    generalize ht : (⟨d, .object i⟩ : SlotType) = t at h'
    cases h' with
    | object hd' hj =>
      cases ht
      rw [hi] at hj
      rw [ClassTree.Class.ext (TableType.named.inj (Option.some.inj hj))]
    | primitive hk q => exact absurd (SlotType.mk.inj ht).2.symm (q.base_ne_object i)
    | _ => cases ht
  | @primitive k hk q =>
    generalize ht : (⟨k + 1, q.base⟩ : SlotType) = t at h'
    cases h' with
    | object => exact absurd (SlotType.mk.inj ht).2 (q.base_ne_object _)
    | primitive hk' q' =>
      obtain ⟨hdims, hbase⟩ := SlotType.mk.inj ht
      rw [Nat.succ.inj hdims, Primitive.base_inj hbase]
    | _ => simp [SlotType.top, SlotType.integer, SlotType.float, SlotType.long, SlotType.double,
        SlotType.null, SlotType.uninitializedThis, SlotType.fresh] at ht
  | _ => cases h'; rfl

theorem Means.inj (hindexed : types.Indexed) (ht : Means types t x)
    (hu : Means types u x) : t = u := by
  cases ht with
  | @fresh i name offset hi =>
    generalize hx : VerifierType.fresh name offset.toInt = x at hu
    cases hu with
    | fresh hj =>
      obtain ⟨rfl, hoffset⟩ := VerifierType.fresh.inj hx
      obtain rfl := Int32.toInt_inj.1 hoffset
      rw [hindexed.inj hi hj]
    | _ => cases hx
  | object hd hi =>
    cases hu with
    | object hd' hj => rw [hindexed.inj hi hj]
  | _ => cases hu; rfl

theorem Means.eq_null_iff (h : Means types t x) : t = SlotType.null ↔ x = .null := by
  cases h with
  | primitive hk q => simp [SlotType.null]
  | _ => simp [SlotType.top, SlotType.integer, SlotType.float, SlotType.long, SlotType.double,
      SlotType.null, SlotType.uninitializedThis, SlotType.fresh]

theorem Means.base_eq_null_iff (h : Means types t x) : t.base = SlotType.null.base ↔ x = .null := by
  cases h with
  | primitive hk q => simpa using q.base_ne_null
  | _ => simp [SlotType.top, SlotType.integer, SlotType.float, SlotType.long, SlotType.double,
      SlotType.null, SlotType.uninitializedThis, SlotType.fresh]

theorem Means.entering_eq (h : Means types t x) : Frame.entering t = t := by
  unfold Frame.entering
  split
  · next hbase => exact (h.eq_null_iff.2 (h.base_eq_null_iff.1 hbase)).symm
  · rfl

/-! ## Classes and arrays -/

theorem family_object (hi : i < 0x100000) : (SlotBase.object i).family = 0x17 := by
  simp only [SlotBase.family, SlotBase.bits]
  omega

theorem value_object (hi : i < 0x100000) : (SlotBase.object i).value = i := by
  simp only [SlotBase.value, SlotBase.bits]
  omega

theorem family_fresh (hi : i < 0x100000) : (SlotBase.fresh i).family = 0x18 := by
  simp only [SlotBase.family, SlotBase.bits]
  omega

theorem Means.isReference_iff (hs : tree.Known s) (h : Means s.types t x) :
    t.isReference ↔ x.IsReference := by
  cases h with
  | fresh hi =>
    simp [isReference, isObject, SlotType.fresh, family_fresh (hs.lt_of_at? hi), IsReference]
  | object hd hi => simp [isReference, isObject, family_object (hs.lt_of_at? hi), IsReference]
  | primitive hk q => simp [isReference, IsReference]
  | _ => simp +decide [IsReference]

theorem Means.isObject_iff (hs : tree.Known s) (h : Means s.types t x) :
    t.isObject ↔ ∃ d c, x = .object d c := by
  cases h with
  | fresh hi => simp [isObject, SlotType.fresh, family_fresh (hs.lt_of_at? hi)]
  | object hd hi => simp [isObject, family_object (hs.lt_of_at? hi)]
  | primitive hk q => simp [isObject, q.family_base]
  | _ => simp +decide

theorem Means.objectDims_eq (hs : tree.Known s) (h : Means s.types t x) (hx : x.IsReference) :
    t.objectDims = x.objectDims ∧ t.objectDims < 8 := by
  cases h with
  | object hd hi =>
    simp only [SlotType.objectDims, isObject, family_object (hs.lt_of_at? hi),
      VerifierType.objectDims]
    simp
    omega
  | primitive hk q =>
    simp only [SlotType.objectDims, isObject, q.family_base, VerifierType.objectDims]
    simp
    omega
  | _ => exact hx.elim

theorem signedDims_lt_iff {e : Nat} (hd : d < 8) (he : e < 8) :
    signedDims d < signedDims e ↔ d < e := by
  simp only [signedDims, hd, he, if_true]
  omega

theorem exists_ends_objectArray (hs : tree.Known s) (hd : d ≤ 7) :
    ∃ v s', Ends (objectArray d) (p, s) v (p, s') ∧ tree.Learns s s' ∧
      Means s'.types v (.object d (⊤ : tree.Class)) := by
  obtain ⟨i, s', hobject, hlearns, hi⟩ := SessionM.exists_ends_objectType (p := p) hs
    (⊤ : tree.Class)
  exact ⟨⟨d, .object i⟩, s', ends_bind.2 ⟨_, _, hobject, ends_pure.2 ⟨rfl, rfl⟩⟩, hlearns,
    .object hd hi⟩

/-! ## One merge -/

def Joins (tree : ClassTree) (act : SessionM (Option SlotType)) (p : Pool) (s : Session)
    (u : SlotType) (x y : VerifierType tree.Class) : Prop :=
  ∃ r s' z, Ends act (p, s) r (p, s') ∧ tree.Learns s s' ∧ IsLUB {x, y} z ∧
    Means s'.types (r.getD u) z

theorem joins_pure (hs : tree.Known s) {r : Option SlotType} (hz : IsLUB {x, y} z)
    (hr : Means s.types (r.getD u) z) : Joins tree (pure r) p s u x y :=
  ⟨r, s, z, ends_pure.2 ⟨rfl, rfl⟩, .refl hs, hz, hr⟩

theorem joins_objectArray (hs : tree.Known s) (hx : x.IsReference) (hy : y.IsReference)
    (hne : x ≠ y) (hdims : ∀ d a b, x = .object d a → y ≠ .object d b)
    (hd : d = min x.objectDims y.objectDims) (hle : d ≤ 7) :
    Joins tree (do return some (← objectArray d)) p s u x y := by
  obtain ⟨v, s', harray, hlearns, hv⟩ := exists_ends_objectArray (p := p) hs hle
  refine ⟨some v, s', _, ends_bind.2 ⟨_, _, harray, ends_pure.2 ⟨rfl, rfl⟩⟩, hlearns,
    isLUB_objects hx hy hne hdims, ?_⟩
  rw [← hd]
  exact hv

theorem joins_alike (hs : tree.Known s) (ht : Means s.types t y) (hu : Means s.types u x)
    (hne : x ≠ y) (hx : x.IsReference) (halike : t.dims = u.dims ∧ t.base.family = u.base.family) :
    Joins tree
      (if u.isObject then do
        return some ⟨t.dims, .object (← SessionM.mergedPlace t.base.value u.base.value)⟩
      else do return some (← objectArray ((t.dims + 15) % 16))) p s u x y := by
  obtain ⟨hdims, hfamily⟩ := halike
  cases hu with
  | @object j d b hd hj =>
    rw [family_object (hs.lt_of_at? hj)] at hfamily
    obtain ⟨e, a, rfl⟩ := (ht.isObject_iff hs).1 (by simp [isObject, hfamily])
    cases ht with
    | @object i _ _ _ hi =>
      obtain ⟨k, s', c, hmerge, hlearns, hlub, hk⟩ :=
        SessionM.exists_ends_mergedPlace (p := p) hs hi hj
      dsimp only at hdims
      subst hdims
      rw [value_object (hs.lt_of_at? hi), value_object (hs.lt_of_at? hj),
        if_pos (by simp [isObject, family_object (hs.lt_of_at? hj)])]
      refine ⟨some ⟨e, .object k⟩, s', .object e c,
        ends_bind.2 ⟨_, _, hmerge, ends_pure.2 ⟨rfl, rfl⟩⟩, hlearns, ?_, .object hd hk⟩
      rw [Set.pair_comm]
      exact isLUB_covariant e hlub
  | @primitive k hk q =>
    -- the new type is an array of another primitive type with the same dimensions
    rw [q.family_base] at hfamily
    rw [if_neg (by simp [isObject, q.family_base])]
    cases ht with
    | fresh hi => simp [fresh] at hdims
    | object hd hi =>
      rw [family_object (hs.lt_of_at? hi)] at hfamily
      cases hfamily
    | @primitive k' hk' q' =>
      obtain rfl : k' = k := Nat.succ.inj hdims
      have href (q : Primitive) : (primitive k' q : VerifierType tree.Class).IsReference := trivial
      refine joins_objectArray hs (href q) (href q') hne (by simp) ?_ ?_
      · simp only [VerifierType.objectDims, min_self]
        omega
      · simp only
        omega
    | _ => simp [top, integer, float, long, double,
        null, uninitializedThis] at hdims
  | _ => exact hx.elim

theorem joins_join (hs : tree.Known s) (ht : Means s.types t y) (hu : Means s.types u x)
    (hne : x ≠ y) : Joins tree (join t u) p s u x y := by
  unfold join
  by_cases hx : x.IsReference
  · rw [if_pos ((hu.isReference_iff hs).2 hx)]
    by_cases hy : y = .null
    · subst hy
      rw [if_pos (ht.eq_null_iff.2 rfl)]
      refine joins_pure hs ?_ hu
      rw [Set.pair_comm]
      exact isLUB_of_le (null_le hx)
    rw [if_neg (mt ht.eq_null_iff.1 hy)]
    by_cases halike : t.dims = u.dims ∧ t.base.family = u.base.family
    · rw [if_pos halike]
      exact joins_alike hs ht hu hne hx halike
    rw [if_neg halike]
    by_cases hyref : y.IsReference
    · rw [if_pos ((ht.isReference_iff hs).2 hyref)]
      obtain ⟨hdu, hlu⟩ := hu.objectDims_eq hs hx
      obtain ⟨hdt, hlt⟩ := ht.objectDims_eq hs hyref
      refine joins_objectArray hs hx hyref hne ?_ ?_ ?_
      · rintro d a b rfl rfl
        cases hu with
        | object hd hj =>
          cases ht with
          | object hd' hi =>
            simp [family_object (hs.lt_of_at? hi), family_object (hs.lt_of_at? hj)] at halike
      · simp only [signedDims_lt_iff hlu hlt]
        rw [← hdu, ← hdt]
        split <;> omega
      · split <;> omega
    · rw [if_neg (mt (ht.isReference_iff hs).1 hyref)]
      refine joins_pure hs ?_ .top
      rw [Set.pair_comm]
      exact isLUB_unrelated hy hyref (Ne.symm hne)
  · rw [if_neg (mt (hu.isReference_iff hs).1 hx)]
    by_cases hnull : x = .null
    · rw [if_pos (hu.eq_null_iff.2 hnull)]
      subst hnull
      by_cases hyref : y.IsReference
      · rw [if_pos ((ht.isReference_iff hs).2 hyref)]
        exact joins_pure hs (isLUB_of_le (null_le hyref)) ht
      · rw [if_neg (mt (ht.isReference_iff hs).1 hyref)]
        refine joins_pure hs ?_ .top
        rw [Set.pair_comm]
        exact isLUB_unrelated (Ne.symm hne) hyref (Ne.symm hne)
    · rw [if_neg (mt hu.eq_null_iff.1 hnull)]
      exact joins_pure hs (isLUB_unrelated hnull hx hne) .top

theorem joins_mergeInto (hs : tree.Known s) (ht : Means s.types t y) (hu : Means s.types u x) :
    Joins tree (mergeInto t u) p s u x y := by
  unfold mergeInto
  by_cases heq : u = t
  · subst heq
    rw [if_pos rfl]
    obtain rfl := hu.unique ht
    exact joins_pure hs (by simp) hu
  rw [if_neg heq]
  have hne : x ≠ y := by
    rintro rfl
    exact heq (hu.inj hs.faithful.indexed ht)
  have hboth : ¬ (t.base = null.base ∧ u = null) := by
    rintro ⟨hbase, hnull⟩
    exact hne ((hu.eq_null_iff.1 hnull).trans (ht.base_eq_null_iff.1 hbase).symm)
  have henter : (if t.base = null.base then null else t) = t := ht.entering_eq
  simp only [hboth, henter, hu.ne_unset, if_false]
  obtain ⟨r, s', z, hjoin, hlearns, hz, hr⟩ := joins_join (p := p) hs ht hu hne
  cases r with
  | none => exact ⟨none, s', z, ends_bind.2 ⟨_, _, hjoin, ends_pure.2 ⟨rfl, rfl⟩⟩, hlearns, hz, hr⟩
  | some v =>
    refine ⟨if u = v then none else some v, s', z,
      ends_bind.2 ⟨_, _, hjoin, ends_pure.2 ⟨rfl, rfl⟩⟩, hlearns, hz, ?_⟩
    by_cases huv : u = v
    · subst huv
      simpa using hr
    · simpa [huv] using hr

theorem ends_mergeInto_unset (ht : Means s.types t y) :
    Ends (mergeInto t unset) (p, s) (some t) (p, s) := by
  have henter : (if t.base = null.base then null else t) = t := ht.entering_eq
  have hnull : unset ≠ null := by decide
  unfold mergeInto
  simp only [Ne.symm ht.ne_unset, hnull, and_false, henter, if_true, if_false]
  exact ends_pure.2 ⟨rfl, rfl⟩

end SlotType

/-! ## Merging one type after another -/

namespace MergedSlots

open SlotType

variable {tree : ClassTree} {p : Pool} {s : Session} {m : MergedSlots} {i : Nat} {t u : SlotType}
  {x y : VerifierType tree.Class}

variable {ts : List SlotType}

theorem fetch_of_getElem? {α : Type} {xs : Array α} {a : α} (h : xs[i]? = some a) :
    Checked.fetch xs i = .ok a := by
  simp [Checked.fetch, h]

theorem setIfInBounds_self {α : Type} {xs : Array α} {a : α} (h : xs[i]? = some a) :
    xs.setIfInBounds i a = xs := by
  obtain ⟨hlt, hget⟩ := Array.getElem?_eq_some_iff.1 h
  rw [Array.setIfInBounds, dif_pos hlt, ← hget, Array.set_getElem_self]

theorem ends_merge {p' : Pool} {s' : Session} {r : Option SlotType} (hi : m.slots[i]? = some u)
    (h : Ends (mergeInto t u) (p, s) r (p', s')) :
    Ends (m.merge t i) (p, s) ⟨m.slots.setIfInBounds i (r.getD u), m.changed || r.isSome⟩
      (p', s') := by
  have hsize : ¬ (m.slots.size : Int) ≤ (i : Int) := by
    have hlt : i < m.slots.size := (Array.getElem?_eq_some_iff.1 hi).1
    omega
  unfold merge
  rw [if_neg hsize]
  refine ends_bind.2 ⟨u, (p, s), ?_, ends_bind.2 ⟨r, _, h, ?_⟩⟩
  · rw [fetch_of_getElem? hi]
    exact ends_lift.2 ⟨ends_checked.2 ⟨rfl, rfl⟩, rfl⟩
  cases r with
  | none =>
    refine ends_pure.2 ⟨?_, rfl⟩
    rw [Option.getD_none, setIfInBounds_self hi]
    simp
  | some v =>
    refine ends_pure.2 ⟨?_, rfl⟩
    simp

def mergeAll (m : MergedSlots) (i : Nat) (ts : List SlotType) : SessionM MergedSlots :=
  ts.foldlM (fun m t => m.merge t i) m

def meanings (tree : ClassTree) (types : TypeTable) (ts : List SlotType) :
    Set (VerifierType tree.Class) :=
  {y | ∃ t ∈ ts, Means types t y}

theorem meanings_cons {types : TypeTable} (ht : Means types t y) :
    meanings tree types (t :: ts) = insert y (meanings tree types ts) := by
  ext z
  simp only [meanings, mem_cons, Set.mem_ofPred_eq, Set.mem_insert_iff]
  constructor
  · rintro ⟨t', rfl | hmem, hz⟩
    · exact .inl (hz.unique ht)
    · exact .inr ⟨t', hmem, hz⟩
  · rintro (rfl | ⟨t', hmem, hz⟩)
    · exact ⟨t, .inl rfl, ht⟩
    · exact ⟨t', .inr hmem, hz⟩

theorem meanings_of_grows {types types' : TypeTable} (hgrows : types.Grows types')
    (hts : ∀ t ∈ ts, ∃ y : VerifierType tree.Class, Means types t y) :
    meanings tree types' ts = meanings tree types ts := by
  ext z
  constructor
  · rintro ⟨t, hmem, hz⟩
    obtain ⟨y, hy⟩ := hts t hmem
    rw [hz.unique (hy.mono hgrows)]
    exact ⟨t, hmem, hy⟩
  · rintro ⟨t, hmem, hz⟩
    exact ⟨t, hmem, hz.mono hgrows⟩

theorem exists_ends_mergeAll (hs : tree.Known s)
    (hts : ∀ t ∈ ts, ∃ y : VerifierType tree.Class, Means s.types t y)
    {S : Set (VerifierType tree.Class)} (hS : IsLUB S x) (hi : m.slots[i]? = some u)
    (hu : Means s.types u x) :
    ∃ v s' z b, Ends (m.mergeAll i ts) (p, s) ⟨m.slots.setIfInBounds i v, m.changed || b⟩ (p, s') ∧
      tree.Learns s s' ∧ Means s'.types v z ∧ IsLUB (S ∪ meanings tree s.types ts) z := by
  induction ts generalizing m s u x S with
  | nil =>
    refine ⟨u, s, x, false, ends_pure.2 ⟨?_, rfl⟩, .refl hs, hu, by simpa [meanings] using hS⟩
    rw [setIfInBounds_self hi, Bool.or_false]
  | cons t ts ih =>
    obtain ⟨y, hy⟩ := hts t mem_cons_self
    obtain ⟨r, s₁, z₁, hmerge, hlearns, hz₁, hr⟩ := joins_mergeInto (p := p) hs hy hu
    have hlt : i < m.slots.size := (Array.getElem?_eq_some_iff.1 hi).1
    have hrest : ∀ t' ∈ ts, ∃ y : VerifierType tree.Class, Means s.types t' y :=
      fun t' ht' => hts t' (mem_cons_of_mem t ht')
    have hrest₁ : ∀ t' ∈ ts, ∃ y : VerifierType tree.Class, Means s₁.types t' y := by
      intro t' ht'
      obtain ⟨y', hy'⟩ := hrest t' ht'
      exact ⟨y', hy'.mono hlearns.grows⟩
    obtain ⟨v, s', z, b, hall, hlearns', hv, hz⟩ :=
      ih (m := ⟨m.slots.setIfInBounds i (r.getD u), m.changed || r.isSome⟩) hlearns.known hrest₁
        (isLUB_insert hS hz₁) (by simp [hlt]) hr
    refine ⟨v, s', z, r.isSome || b, ends_bind.2 ⟨_, _, ends_merge hi hmerge, ?_⟩,
      hlearns.trans hlearns', hv, ?_⟩
    · simpa [mergeAll, Bool.or_assoc] using hall
    · rwa [meanings_cons hy, Set.union_insert, ← Set.insert_union,
        ← meanings_of_grows hlearns.grows hrest]

/-- Types that are merged into a slot that is not known yet leave their least upper bound in it.
The order of the types and how often each of them comes do not matter. -/
theorem isLUB_mergeAll (hs : tree.Known s) {ts : List SlotType} (hne : ts ≠ [])
    (hts : ∀ t ∈ ts, ∃ y : VerifierType tree.Class, Means s.types t y) :
    ∃ x, IsLUB (meanings tree s.types ts) x ∧
      ∀ us : List SlotType, (∀ t, t ∈ us ↔ t ∈ ts) →
        ∀ (p : Pool) (m : MergedSlots) (i : Nat), m.slots[i]? = some unset →
          ∃ v s', Ends (m.mergeAll i us) (p, s) ⟨m.slots.setIfInBounds i v, true⟩ (p, s') ∧
            tree.Learns s s' ∧ Means s'.types v x := by
  have hrun (us : List SlotType) (hus : ∀ t, t ∈ us ↔ t ∈ ts) (p : Pool) (m : MergedSlots) (i : Nat)
      (hi : m.slots[i]? = some unset) :
      ∃ v s' x, Ends (m.mergeAll i us) (p, s) ⟨m.slots.setIfInBounds i v, true⟩ (p, s') ∧
        tree.Learns s s' ∧ Means s'.types v x ∧ IsLUB (meanings tree s.types ts) x := by
    have hsame : meanings tree s.types us = meanings tree s.types ts := by
      simp only [meanings, hus]
    obtain ⟨t, us', rfl⟩ : ∃ t us', us = t :: us' := by
      apply exists_cons_of_ne_nil
      rintro rfl
      exact hne (eq_nil_iff_forall_not_mem.2 fun t ht => not_mem_nil ((hus t).2 ht))
    obtain ⟨y, hy⟩ := hts t ((hus t).1 mem_cons_self)
    have hlt : i < m.slots.size := (Array.getElem?_eq_some_iff.1 hi).1
    obtain ⟨v, s', z, b, hall, hlearns, hv, hz⟩ :=
      exists_ends_mergeAll (p := p) (m := ⟨m.slots.setIfInBounds i t, m.changed || true⟩) (i :=
        i) hs (fun t' ht' => hts t' ((hus t').1 (mem_cons_of_mem t ht'))) isLUB_singleton
        (by simp [hlt]) hy
    refine ⟨v, s', z, ends_bind.2 ⟨_, _, ends_merge hi (ends_mergeInto_unset hy), ?_⟩, hlearns, hv,
      ?_⟩
    · simpa [mergeAll] using hall
    · rwa [← hsame, meanings_cons hy]
  obtain ⟨_, _, x, -, -, -, hx⟩ := hrun ts (fun _ => Iff.rfl) default ⟨#[unset], true⟩ 0 rfl
  refine ⟨x, hx, ?_⟩
  intro us hus p m i hi
  obtain ⟨v, s', z, hends, hlearns, hv, hz⟩ := hrun us hus p m i hi
  rw [hx.unique hz]
  exact ⟨v, s', hends, hlearns, hv⟩

def siblings : ClassTree where
  classes := {objectName, [99], [97], [98]}
  super a := if a = [97] ∨ a = [98] then [99] else objectName
  root_mem := by decide
  super_root := by decide
  super_mem := by decide
  rooted := by
    intro a ha
    refine ⟨2, ?_⟩
    revert a
    decide

def siblingClasses : ClassTable :=
  ((({} : ClassTable).addClass [99] objectName).addClass [97] [99]).addClass [98] [99]

def siblingSession : Session where
  hierarchy := .table siblingClasses
  types := ((({} : TypeTable).add (.named [97])).1.add (.named [98])).1

theorem supers_siblings (a : Text) : siblingClasses.supers[a]? =
    if [98] = a then some [99] else if [97] = a then some [99] else if [99] = a then some objectName
    else none := by
  simp [siblingClasses, ClassTable.addClass, Std.HashMap.getElem?_insert]

theorem common?_siblings {a b : Text} (ha : a ∈ siblings.classes) (hb : b ∈ siblings.classes) :
    siblingSession.hierarchy.common? a b =
      some (if a = b then a else if a = objectName ∨ b = objectName then objectName else [99]) := by
  have hobject : objectName =
      [106, 97, 118, 97, 47, 108, 97, 110, 103, 47, 79, 98, 106, 101, 99, 116] := by
    decide
  have hdepth : siblingClasses.depth = 5 := by
    simp [ClassTable.depth, siblingClasses, ClassTable.addClass, Std.HashMap.size_insert]
  have hinterfaces : siblingClasses.interfaces = {} := rfl
  change siblingClasses.common? a b = _
  simp only [siblings, Finset.mem_insert, Finset.mem_singleton] at ha hb
  revert ha hb
  rintro (rfl | rfl | rfl | rfl) (rfl | rfl | rfl | rfl) <;>
    simp [ClassTable.common?, ClassTable.chain?, ClassTable.climb?, hdepth, hinterfaces,
      supers_siblings, hobject]

set_option maxRecDepth 20000 in
theorem known_siblings : siblings.Known siblingSession := by
  constructor
  · dsimp only [siblingSession]
    exact ((TypeTable.faithful_empty _).add _).add _
  · apply Hierarchy.answers_of_depth 2
    · decide
    · intro a ha b hb
      simp only [common?_siblings ha hb, Option.some.injEq]
      revert a b
      decide
  · apply ClassTree.fits_of_card
    have hcard : siblings.classes.card = 4 := by decide
    have hsize : siblingSession.types.entries.size = 3 := by cbv
    rw [hcard, hsize]
    decide

set_option maxRecDepth 20000 in
theorem means_siblings : ∀ t ∈ [(⟨1, .object 1⟩ : SlotType), .null, ⟨1, .object 2⟩],
    ∃ y : VerifierType siblings.Class, Means siblingSession.types t y := by
  have hfirst : siblingSession.types.at? 1 = some (.named [97]) := by cbv
  have hsecond : siblingSession.types.at? 2 = some (.named [98]) := by cbv
  simp only [mem_cons, not_mem_nil, or_false, forall_eq_or_imp, forall_eq]
  exact ⟨⟨_, .object (c := ⟨[97], by decide⟩) (by decide) hfirst⟩, ⟨_, .null⟩,
    ⟨_, .object (c := ⟨[98], by decide⟩) (by decide) hsecond⟩⟩

theorem isLUB_mergeAll_siblings :
    siblings.Known siblingSession ∧
      ∃ x,
      IsLUB (meanings siblings siblingSession.types [⟨1, .object 1⟩, .null, ⟨1, .object 2⟩]) x ∧
        ∃ v s', Ends (mergeAll ⟨#[unset], false⟩ 0 [⟨1, .object 2⟩, .null, ⟨1, .object 1⟩, .null])
            (default, siblingSession) ⟨#[v], true⟩ (default, s') ∧
          siblings.Learns siblingSession s' ∧ Means s'.types v x := by
  obtain ⟨x, hx, hmerge⟩ := isLUB_mergeAll known_siblings (by simp) means_siblings
  refine ⟨known_siblings, x, hx, ?_⟩
  apply hmerge
  · simp only [mem_cons, not_mem_nil]
    tauto
  · rfl

end MergedSlots

end ClassAssembler
