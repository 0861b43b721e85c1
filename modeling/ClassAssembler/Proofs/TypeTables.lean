import ClassAssembler.Proofs.Quiet
import ClassAssembler.Proofs.VerifierOrder
import Mathlib.Data.Finset.Card

/-!
# What the table of types remembers

Every type stands at one place of the table, and the table remembers for two places which class the
hierarchy names for the classes there.  A hierarchy knows a class tree if it names the least class
above any two classes of the tree.  In a session with such a hierarchy, and with room in its table
for the classes of the tree, these classes can be placed and merged without a failure.
-/

namespace ClassAssembler

/-- The class that stands for two classes; without an answer that is the top class. -/
def Hierarchy.covering (h : Hierarchy) (a b : Text) : Text :=
  if a = b then a
  else if a = objectName ∨ b = objectName then objectName
  else (h.common? a b).getD objectName

namespace TypeTable

variable {t : TypeTable} {h : Hierarchy} {e : TableType} {i j : Nat}

theorem lt_size_of_at? (hi : t.at? i = some e) : i < t.entries.size := by
  by_contra hle
  simp [at?, Array.getElem?_eq_none (Nat.le_of_not_lt hle)] at hi

/-- Every type has the place where it stands. -/
structure Indexed (t : TypeTable) : Prop where
  wf : t.Wf
  functional : t.symbolTable.Functional
  place : ∀ e i, t.place? e = some i ↔ t.at? i = some e

theorem Indexed.inj (ht : t.Indexed) (hi : t.at? i = some e) (hj : t.at? j = some e) : i = j := by
  rw [← ht.place] at hi hj
  rw [hi] at hj
  exact Option.some.inj hj

theorem indexed_empty : ({} : TypeTable).Indexed := by
  refine ⟨wf_empty, SymbolTable.functional_empty, fun e i => ?_⟩
  have hnone : ({} : TypeTable).at? i = none := by
    cases i <;> simp [at?]
  have hplace : ({} : TypeTable).place? e = none := SymbolTable.get?_empty e.key
  simp [hnone, hplace]

theorem add_of_place (he : t.place? e = some i) : t.add e = (t, i, false) := by
  rw [add, he]

theorem add_of_new (he : t.place? e = none) :
    t.add e = (⟨t.entries.push (some e),
      t.symbolTable.put e.key t.entries.size (t.entries.size + 1)⟩, t.entries.size,
        decide (t.entries.size > maxPlace)) := by
  rw [add, he]

theorem size_add (ht : t.entries.size ≤ maxPlace + 1) (hroom : (t.add e).2.2 = false) :
    (t.add e).1.entries.size ≤ maxPlace + 1 := by
  cases he : t.place? e with
  | some i =>
    rw [add_of_place he]
    exact ht
  | none =>
    rw [add_of_new he] at hroom ⊢
    simp only [decide_eq_false_iff_not] at hroom
    rw [Array.size_push]
    omega

theorem isPlain_ofPlaces (i j : Nat) : (TableKey.ofPlaces i j).IsPlain := by
  simp [TableKey.ofPlaces, TableKey.IsPlain, TableKey.merged, TableKey.bootstrap]

/-- Two places of four bytes each can be told from their key. -/
theorem ofPlaces_inj {i' j' : Nat} (hi : i < 0x100000000) (hj : j < 0x100000000)
    (hi' : i' < 0x100000000) (hj' : j' < 0x100000000)
    (h : (TableKey.ofPlaces i j).agrees (.ofPlaces i' j')) : i = i' ∧ j = j' := by
  have hpack {i j : Nat} (hi : i < 0x100000000) (hj : j < 0x100000000) :
      (UInt64.ofNat (j <<< 32 ||| i % 0x100000000)).toNat = j * 0x100000000 + i := by
    rw [Nat.mod_eq_of_lt hi, ← Nat.shiftLeft_add_eq_or_of_lt hi, Nat.shiftLeft_eq,
      UInt64.toNat_ofNat', Nat.mod_eq_of_lt (by omega)]
  have hlong : (UInt64.ofNat (j <<< 32 ||| i % 0x100000000)).toInt64 =
      (UInt64.ofNat (j' <<< 32 ||| i' % 0x100000000)).toInt64 := by
    simpa [TableKey.agrees, TableKey.ofPlaces, TableKey.hasText, TableKey.merged, TableKey.named,
      TableKey.fresh] using h
  have hbits := congrArg (fun n : Int64 => n.toUInt64.toNat) hlong
  simp only [UInt64.toUInt64_toInt64, hpack hi hj, hpack hi' hj'] at hbits
  omega

theorem not_agrees_ofPlaces (e : TableType) (i j : Nat) : ¬(TableKey.ofPlaces i j).agrees e.key :=
  fun h => e.key_kind_ne (TableKey.kind_eq_of_agrees h).symm

theorem Indexed.merged_add (ht : t.Indexed) (e : TableType) (i j : Nat) :
    (t.add e).1.merged? i j = t.merged? i j := by
  cases he : t.place? e with
  | some i => rw [add_of_place he]
  | none =>
    rw [add_of_new he]
    exact (ht.functional.get?_put (fun _ => he) (isPlain_ofPlaces i j)).trans
      (if_neg (not_agrees_ofPlaces e i j))

theorem Indexed.add (ht : t.Indexed) (e : TableType) : (t.add e).1.Indexed := by
  cases he : t.place? e with
  | some i =>
    rw [add_of_place he]
    exact ht
  | none =>
    have hwf := (t.grows_add e).1.wf ht.wf
    rw [add_of_new he] at hwf ⊢
    refine ⟨hwf, ht.functional.put fun _ => he, fun d j => ?_⟩
    have hplace : (t.symbolTable.put e.key t.entries.size (t.entries.size + 1)).get? d.key = _ :=
      ht.functional.get?_put (fun _ => he) d.key_isPlain
    simp only [TableType.agrees_key] at hplace
    rw [at?_push, place?, hplace]
    -- a type stands at the new place exactly if it is the new type
    by_cases hd : d = e
    · subst hd
      have hnot : t.at? j ≠ some d := by
        intro hj
        rw [← ht.place, he] at hj
        cases hj
      by_cases hj : j = t.entries.size
      · simp [hj]
      · simpa [hj, Ne.symm hj, at?] using hnot
    · by_cases hj : j = t.entries.size
      · have hnone : t.symbolTable.get? d.key ≠ some j := by
          intro hplace
          have hlt : j < t.entries.size := lt_size_of_at? ((ht.place d j).1 hplace)
          omega
        subst hj
        simp [hd, Ne.symm hd, hnone]
      · rw [if_neg hd, if_neg hj]
        exact ht.place d j

theorem Indexed.merged_remember (ht : t.Indexed) {k : Nat} (hnew : t.merged? i j = none)
    (i' j' : Nat) : (t.remember i j k).merged? i' j' =
      if (TableKey.ofPlaces i' j').agrees (.ofPlaces i j) then some k else t.merged? i' j' :=
  ht.functional.get?_put (fun _ => hnew) (isPlain_ofPlaces i' j')

theorem Indexed.place_remember (ht : t.Indexed) {k : Nat} (hnew : t.merged? i j = none)
    (e : TableType) : (t.remember i j k).place? e = t.place? e :=
  (ht.functional.get?_put (fun _ => hnew) e.key_isPlain).trans
    (if_neg fun h => e.key_kind_ne (TableKey.kind_eq_of_agrees h))

theorem Indexed.remember (ht : t.Indexed) {k : Nat} (hnew : t.merged? i j = none) :
    (t.remember i j k).Indexed := by
  refine ⟨(t.grows_remember i j k).wf ht.wf, ht.functional.put fun _ => hnew, fun e l => ?_⟩
  rw [ht.place_remember hnew]
  exact ht.place e l

/-- An indexed table that remembers what the hierarchy says about places of four bytes. -/
structure Faithful (h : Hierarchy) (t : TypeTable) : Prop where
  indexed : t.Indexed
  merged : ∀ i < 0x100000000, ∀ j < 0x100000000, ∀ k, t.merged? i j = some k →
    ∃ a b, t.at? i = some a ∧ t.at? j = some b ∧ t.at? k = some (.named (h.covering a.name b.name))

theorem faithful_empty (h : Hierarchy) : ({} : TypeTable).Faithful h := by
  constructor
  · exact indexed_empty
  · intro i _ j _ k hk
    have hnone : ({} : TypeTable).merged? i j = none := SymbolTable.get?_empty _
    rw [hnone] at hk
    cases hk

theorem Faithful.add (ht : t.Faithful h) (e : TableType) : (t.add e).1.Faithful h := by
  have hgrows : t.Grows (t.add e).1 := (t.grows_add e).1
  constructor
  · exact ht.indexed.add e
  · intro i hi j hj k hk
    rw [ht.indexed.merged_add] at hk
    obtain ⟨a, b, ha, hb, hc⟩ := ht.merged i hi j hj k hk
    exact ⟨a, b, hgrows.at? ha, hgrows.at? hb, hgrows.at? hc⟩

theorem Faithful.remember (ht : t.Faithful h) {k : Nat} {a b : TableType} (hi : i < 0x100000000)
    (hj : j < 0x100000000) (hnew : t.merged? i j = none) (ha : t.at? i = some a)
    (hb : t.at? j = some b) (hk : t.at? k = some (.named (h.covering a.name b.name))) :
    (t.remember i j k).Faithful h := by
  constructor
  · exact ht.indexed.remember hnew
  · intro i' hi' j' hj' k' hk'
    rw [ht.indexed.merged_remember hnew] at hk'
    split at hk'
    · next heq =>
      obtain ⟨rfl, rfl⟩ := ofPlaces_inj hi' hj' hi hj heq
      cases hk'
      exact ⟨a, b, ha, hb, hk⟩
    · exact ht.merged i' hi' j' hj' k' hk'

end TypeTable

namespace SessionM

open TypeTable

def added (s : Session) (e : TableType) : Session := { s with types := (s.types.add e).1 }

theorem ends_place_of_room {p : Pool} {s : Session} {e : TableType}
    (h : (s.types.add e).2.2 = false) :
    Ends (place e) (p, s) (s.types.add e).2.1 (p, added s e) := by
  unfold place
  rw [ends_bind]
  refine ⟨_, _, ends_modifyGet.2 ⟨rfl, rfl⟩, ?_⟩
  simp [h, added]

end SessionM

/-! ## Class trees in a session -/

/-- A hierarchy that names the least class above any two classes of a tree. -/
def Hierarchy.Answers (h : Hierarchy) (tree : ClassTree) : Prop :=
  ∀ a b : tree.Class, ∃ c : tree.Class, h.common? a.name b.name = some c.name ∧ IsLUB {a, b} c

theorem Hierarchy.Answers.covering {h : Hierarchy} {tree : ClassTree} (hh : h.Answers tree)
    (a b : tree.Class) : ∃ c : tree.Class, h.covering a.name b.name = c.name ∧ IsLUB {a, b} c := by
  unfold Hierarchy.covering
  split
  · next hab =>
    have heq : a = b := ClassTree.Class.ext hab
    subst heq
    exact ⟨a, rfl, by simp⟩
  split
  · next htop =>
    refine ⟨⊤, rfl, ?_⟩
    rcases htop with htop | htop
    · obtain rfl : a = ⊤ := ClassTree.Class.ext htop
      exact ⟨by simp [upperBounds], by simp [lowerBounds, upperBounds]⟩
    · obtain rfl : b = ⊤ := ClassTree.Class.ext htop
      exact ⟨by simp [upperBounds], by simp [lowerBounds, upperBounds]⟩
  · obtain ⟨c, hc, hlub⟩ := hh a b
    exact ⟨c, by rw [hc]; rfl, hlub⟩

theorem Hierarchy.answers_of_depth {h : Hierarchy} {tree : ClassTree} (depth : Nat)
    (hdepth : ∀ a ∈ tree.classes, tree.super^[depth] a = objectName)
    (hcommon : ∀ a ∈ tree.classes, ∀ b ∈ tree.classes, ∃ c ∈ tree.classes, h.common? a b = some c ∧
      ∀ w ∈ tree.classes, (∃ n ∈ List.range (depth + 1), tree.super^[n] c = w) ↔
        (∃ n ∈ List.range (depth + 1), tree.super^[n] a = w) ∧
          ∃ n ∈ List.range (depth + 1), tree.super^[n] b = w) :
    h.Answers tree := by
  intro a b
  obtain ⟨c, hc, hanswer, habove⟩ := hcommon a.name a.mem b.name b.mem
  have hle (w : tree.Class) : (⟨c, hc⟩ : tree.Class) ≤ w ↔ a ≤ w ∧ b ≤ w := by
    simp only [ClassTree.le_iff_of_depth hdepth]
    exact habove w.name w.mem
  refine ⟨⟨c, hc⟩, hanswer, ?_, ?_⟩
  · simpa [upperBounds] using (hle ⟨c, hc⟩).1 le_rfl
  · intro w hw
    exact (hle w).2 ⟨hw (by simp), hw (by simp)⟩

namespace ClassTree

def missing (tree : ClassTree) (t : TypeTable) : Finset Text :=
  tree.classes.filter fun a => t.place? (.named a) = none

def Fits (tree : ClassTree) (t : TypeTable) : Prop :=
  t.entries.size + (tree.missing t).card ≤ TypeTable.maxPlace + 1

variable {tree : ClassTree} {t : TypeTable} {a : Text}

theorem fits_of_card (h : t.entries.size + tree.classes.card ≤ TypeTable.maxPlace + 1) :
    tree.Fits t := by
  have hle : (tree.missing t).card ≤ tree.classes.card := Finset.card_filter_le _ _
  unfold Fits
  omega

theorem Fits.add (ht : tree.Fits t) (ha : a ∈ tree.classes) :
    tree.Fits (t.add (.named a)).1 ∧ (t.add (.named a)).2.2 = false := by
  cases he : t.place? (.named a) with
  | some i =>
    rw [TypeTable.add_of_place he]
    exact ⟨ht, rfl⟩
  | none =>
    have hmem : a ∈ tree.missing t := Finset.mem_filter.2 ⟨ha, he⟩
    have herase : tree.missing (t.add (.named a)).1 = (tree.missing t).erase a := by
      ext b
      have hput : ((t.add (.named a)).1.place? (.named b)).isSome ↔ b = a ∨
          (t.place? (.named b)).isSome := by
        rw [TypeTable.add_of_new he]
        refine (SymbolTable.isSome_get?_put (TableType.key_isPlain _)).trans (or_congr_left ?_)
        rw [TableType.agrees_key, TableType.named.injEq]
      simp only [missing, Finset.mem_filter, Finset.mem_erase, ← Option.isNone_iff_eq_none,
        ← Option.not_isSome, hput, Bool.not_eq_true', Bool.eq_false_iff, ne_eq]
      tauto
    have hpos : 0 < (tree.missing t).card := Finset.card_pos.2 ⟨a, hmem⟩
    unfold Fits at ht ⊢
    rw [herase, Finset.card_erase_of_mem hmem, TypeTable.add_of_new he]
    constructor
    · simp only [Array.size_push]
      omega
    · simp only [decide_eq_false_iff_not]
      omega

/-- A session whose hierarchy knows a class tree and whose table has room for it. -/
structure Known (tree : ClassTree) (s : Session) : Prop where
  faithful : s.types.Faithful s.hierarchy
  answers : s.hierarchy.Answers tree
  fits : tree.Fits s.types

/-- A session in which more classes of a tree may have a place. -/
structure Learns (tree : ClassTree) (s s' : Session) : Prop where
  known : tree.Known s'
  grows : s.types.Grows s'.types
  rest : s' = { s with types := s'.types }

variable {s s' s'' : Session}

theorem Learns.refl (hs : tree.Known s) : tree.Learns s s :=
  ⟨hs, Steps.refl s.types, rfl⟩

theorem Learns.trans (h : tree.Learns s s') (h' : tree.Learns s' s'') : tree.Learns s s'' := by
  refine ⟨h'.known, Steps.trans h.grows h'.grows, ?_⟩
  rw [h'.rest, h.rest]

theorem Known.lt_of_at? (hs : tree.Known s) {i : Nat} {e : TableType}
    (hi : s.types.at? i = some e) : i < 0x100000 := by
  have hlt := TypeTable.lt_size_of_at? hi
  have hfits := hs.fits
  simp only [Fits, TypeTable.maxPlace] at hfits
  omega

end ClassTree

namespace SessionM

variable {tree : ClassTree} {p : Pool} {s : Session}

theorem exists_ends_placeOf (hs : tree.Known s) (c : tree.Class) :
    ∃ i s', Ends (placeOf c.name) (p, s) i (p, s') ∧ tree.Learns s s' ∧
      s'.types.at? i = some (.named c.name) ∧ s'.types.merged? = s.types.merged? := by
  obtain ⟨hfits, hroom⟩ := hs.fits.add c.mem
  obtain ⟨hgrows, hat⟩ := s.types.grows_add (.named c.name)
  exact ⟨_, added s (.named c.name), ends_place_of_room hroom,
    ⟨⟨hs.faithful.add _, hs.answers, hfits⟩, hgrows, rfl⟩, hat hs.faithful.indexed.wf,
    funext₂ (hs.faithful.indexed.merged_add _)⟩

theorem exists_ends_objectType (hs : tree.Known s) (c : tree.Class) :
    ∃ i s', Ends (objectType c.name) (p, s) (.object i) (p, s') ∧ tree.Learns s s' ∧
      s'.types.at? i = some (.named c.name) := by
  obtain ⟨i, s', hplace, hlearns, hat, -⟩ := exists_ends_placeOf (p := p) hs c
  exact ⟨i, s', ends_bind.2 ⟨i, _, hplace, ends_pure.2 ⟨rfl, rfl⟩⟩, hlearns, hat⟩

theorem ends_typeAt_of_at? {i : Nat} {e : TableType} (hi : s.types.at? i = some e) :
    Ends (typeAt i) (p, s) e (p, s) := by
  simp [typeAt, hi]

theorem ends_commonSuper (hs : tree.Known s) (a b : tree.Class) :
    Ends (commonSuper a.name b.name) (p, s) (s.hierarchy.covering a.name b.name) (p, s) := by
  unfold commonSuper Hierarchy.covering
  split
  · exact ends_pure.2 ⟨rfl, rfl⟩
  split
  · exact ends_pure.2 ⟨rfl, rfl⟩
  · obtain ⟨c, hc, -⟩ := hs.answers a b
    simp [hc]

theorem exists_ends_mergedPlace (hs : tree.Known s) {i j : Nat} {a b : tree.Class}
    (hi : s.types.at? i = some (.named a.name)) (hj : s.types.at? j = some (.named b.name)) :
    ∃ k s' c, Ends (mergedPlace i j) (p, s) k (p, s') ∧ tree.Learns s s' ∧ IsLUB {a, b} c ∧
      s'.types.at? k = some (.named c.name) := by
  obtain ⟨c, hc, hlub⟩ := hs.answers.covering a b
  have hlt {i : Nat} {e : TableType} (h : s.types.at? i = some e) : i < 0x100000000 :=
    (hs.lt_of_at? h).trans (by decide)
  unfold mergedPlace
  cases hmerged : s.types.merged? i j with
  | some k =>
    obtain ⟨_, _, ha, hb, hk⟩ := hs.faithful.merged i (hlt hi) j (hlt hj) k hmerged
    obtain rfl := Option.some.inj (hi.symm.trans ha)
    obtain rfl := Option.some.inj (hj.symm.trans hb)
    refine ⟨k, s, c, ?_, .refl hs, hlub, ?_⟩
    · simp [hmerged]
    · rw [hk]
      exact congrArg (fun name => some (TableType.named name)) hc
  | none =>
    obtain ⟨k, s', hplace, hlearns, hk, hsame⟩ := exists_ends_placeOf (p := p) hs c
    have hnew : s'.types.merged? i j = none := by
      rw [hsame, hmerged]
    have hcommon := ends_commonSuper (p := p) hs a b
    rw [hc] at hcommon
    have hanswer : s'.types.at? k =
        some (.named (s'.hierarchy.covering (TableType.named a.name).name
          (TableType.named b.name).name)) := by
      rw [hk, hlearns.rest]
      exact congrArg (fun name => some (TableType.named name)) hc.symm
    have hremember := hlearns.known.faithful.remember (hlt hi) (hlt hj) hnew (hlearns.grows.at? hi)
      (hlearns.grows.at? hj) hanswer
    have hfits : tree.Fits (s'.types.remember i j k) := by
      have hplaces := hlearns.known.faithful.indexed.place_remember (k := k) hnew
      have hmissing : tree.missing (s'.types.remember i j k) = tree.missing s'.types := by
        simp only [ClassTree.missing, hplaces]
      rw [ClassTree.Fits, hmissing]
      exact hlearns.known.fits
    refine ⟨k, { s' with types := s'.types.remember i j k }, c, ?_,
      ⟨⟨hremember, hlearns.known.answers, hfits⟩,
        Steps.trans hlearns.grows (s'.types.grows_remember i j k), ?_⟩, hlub, hk⟩
    · refine ends_bind.2 ⟨_, _, ends_get.2 ⟨rfl, rfl⟩, ?_⟩
      simp only [hmerged, ends_bind]
      exact ⟨_, _, ends_typeAt_of_at? hi, _, _, ends_typeAt_of_at? hj, _, _, hcommon, _, _, hplace,
        ⟨⟩, _, ends_modify.2 rfl, ends_pure.2 ⟨rfl, rfl⟩⟩
    · rw [hlearns.rest]

end SessionM

end ClassAssembler
