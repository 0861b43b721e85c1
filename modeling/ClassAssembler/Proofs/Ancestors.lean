import Mathlib.Data.List.Nodup
import Mathlib.Data.List.Perm.Subperm
import Mathlib.Logic.Relation
import ClassAssembler.Hierarchy.Basic

/-!
# Common ancestors

The superclasses of a class form a chain, since a class has one superclass at most.  If no chain
comes back to its start, any two chains that meet stay together, and the place where they meet is
the least common ancestor.  A class table finds it (`ClassTable.common?_eq_some_iff`): the answer is
the same for both orders of the arguments, and there is one exactly if both chains reach the top.

Classes that are announced on top of a table add their superclass to the relation.  Whatever such a
hierarchy answers is still a least common ancestor (`Hierarchy.answer_of_common?`), as long as no
class has an interface as its superclass.  But it answers nothing about the classes of the table
below an announced one (`Hierarchy.Addable.common?_below`).
-/

namespace ClassAssembler

open Relation List Option

/-! ## Joins along a relation -/

/-- A name at or above two others, and below all such names. -/
structure IsJoin (le : Text → Text → Prop) (a b s : Text) : Prop where
  left : le a s
  right : le b s
  least : ∀ t, le a t → le b t → le s t

section Joins

variable {R R' : Text → Text → Prop} {a b c s t : Text}

def Acyclic (R : Text → Text → Prop) : Prop := ∀ a, ¬ TransGen R a a

theorem Acyclic.mono (hR' : Acyclic R') (hsub : R ≤ R') : Acyclic R :=
  fun a ha => hR' a (TransGen.mono hsub a a ha)

theorem acyclic_of_rank (rank : Text → Nat) (hrank : ∀ a b, R a b → rank b < rank a) :
    Acyclic R := by
  have hlt : ∀ {a b}, TransGen R a b → rank b < rank a := by
    intro a b h
    induction h with
    | single h => exact hrank _ _ h
    | tail _ h ih => exact Nat.lt_trans (hrank _ _ h) ih
  exact fun a ha => Nat.lt_irrefl _ (hlt ha)

theorem Acyclic.antisymm (hR : Acyclic R) (hab : ReflTransGen R a b) (hba : ReflTransGen R b a) :
    a = b := by
  rcases reflTransGen_iff_eq_or_transGen.1 hab with heq | hab
  · exact heq.symm
  · exact absurd (hab.trans_left hba) (hR a)

theorem IsJoin.symm {le : Text → Text → Prop} (h : IsJoin le a b s) : IsJoin le b a s :=
  ⟨h.right, h.left, fun t hb ha => h.least t ha hb⟩

theorem IsJoin.unique (hR : Acyclic R) (hs : IsJoin (ReflTransGen R) a b s)
    (ht : IsJoin (ReflTransGen R) a b t) : s = t :=
  hR.antisymm (hs.least t ht.left ht.right) (ht.least s hs.left hs.right)

theorem reflTransGen_of_between (hsub : R ≤ R') (hunique : Relator.RightUnique R')
    (hacyclic : Acyclic R') (has : ReflTransGen R a s) (hat : ReflTransGen R' a t)
    (hts : ReflTransGen R' t s) : ReflTransGen R a t := by
  induction has using ReflTransGen.head_induction_on with
  | refl =>
    rw [hacyclic.antisymm hat hts]
  | head hac _ ih =>
    rcases hat.cases_head with rfl | ⟨c', hac', hct⟩
    · exact .refl
    · obtain rfl := hunique (hsub _ _ hac) hac'
      exact .head hac (ih hct)

theorem IsJoin.mono (hsub : R ≤ R') (hunique : Relator.RightUnique R') (hacyclic : Acyclic R')
    (h : IsJoin (ReflTransGen R) a b s) : IsJoin (ReflTransGen R') a b s := by
  have hmono := ReflTransGen.mono hsub
  refine ⟨hmono a s h.left, hmono b s h.right, fun t hat hbt => ?_⟩
  rcases (hmono a s h.left).total_of_right_unique hunique hat with hst | hts
  · exact hst
  · have hat := reflTransGen_of_between hsub hunique hacyclic h.left hat hts
    have hbt := reflTransGen_of_between hsub hunique hacyclic h.right hbt hts
    exact hmono s t (h.least t hat hbt)

theorem IsJoin.head (hunique : Relator.RightUnique R) (hac : R a c) (hba : ¬ ReflTransGen R b a)
    (h : IsJoin (ReflTransGen R) c b s) : IsJoin (ReflTransGen R) a b s := by
  refine ⟨h.left.head hac, h.right, fun t hat hbt => ?_⟩
  rcases hat.cases_head with rfl | ⟨c', hac', hct⟩
  · exact absurd hbt hba
  · obtain rfl := hunique hac hac'
    exact h.least t hct hbt

end Joins

/-! ## Class tables -/

namespace ClassTable

variable {h : ClassTable} {a b c s t : Text}

def Extends (h : ClassTable) (a b : Text) : Prop := h.supers[a]? = some b

abbrev Above (h : ClassTable) (a b : Text) : Prop := ReflTransGen h.Extends a b

/-- The names for which the table has only the top in common with any class. -/
def IsInterface (h : ClassTable) (a : Text) : Prop := h.interfaces.contains a = true

theorem extends_unique : Relator.RightUnique h.Extends := by
  intro a b c hab hac
  exact some.inj (hab.symm.trans hac)

theorem extends_addClass {name super : Text} :
    (h.addClass name super).Extends a b ↔ if name = a then super = b else h.Extends a b := by
  simp only [Extends, addClass, Std.HashMap.getElem?_insert, beq_iff_eq]
  split <;> simp

theorem extends_name {name super : Text} : (h.addClass name super).Extends name super :=
  extends_addClass.2 (by rw [if_pos rfl])

theorem isInterface_addClass {name super : Text} :
    (h.addClass name super).IsInterface a ↔ h.IsInterface a :=
  Iff.rfl

/-- The class that is reached from another one in some number of steps. -/
def after? (h : ClassTable) : Nat → Text → Option Text
  | 0, a => some a
  | n + 1, a => h.supers[a]?.bind (h.after? n)

theorem after?_succ (hab : h.Extends a b) (n : Nat) : h.after? (n + 1) a = h.after? n b := by
  rw [after?, hab, bind_some]

theorem after?_add (m n : Nat) (a : Text) :
    h.after? (m + n) a = (h.after? m a).bind (h.after? n) := by
  induction m generalizing a with
  | zero => simp [after?]
  | succ m ih =>
    rw [Nat.add_right_comm, after?, after?]
    cases h.supers[a]? with
    | none => rfl
    | some b => exact ih b

theorem transGen_of_after? {n : Nat} (hn : h.after? (n + 1) a = some b) :
    TransGen h.Extends a b := by
  induction n generalizing a with
  | zero =>
    simp only [after?, bind_fun_some] at hn
    exact .single hn
  | succ n ih =>
    rw [after?] at hn
    obtain ⟨c, hac, hcb⟩ := bind_eq_some_iff.1 hn
    exact .head hac (ih hcb)

theorem exists_after?_eq_none (hacyclic : Acyclic h.Extends) (a : Text) :
    ∃ n < h.depth, h.after? n a = none := by
  by_contra! hsome
  -- all names on the way have a superclass, and no name comes twice
  have hname : ∀ k ∈ range (h.supers.size + 1), ∃ b, h.after? k a = some b ∧ b ∈ h.supers := by
    intro k hk
    have hk' : k + 1 < h.depth := by
      simp only [mem_range, depth] at hk ⊢
      omega
    have hnext := hsome (k + 1) hk'
    rw [after?_add] at hnext
    obtain ⟨c, hc⟩ := ne_none_iff_exists'.1 hnext
    obtain ⟨b, hb, hbc⟩ := bind_eq_some_iff.1 hc
    simp only [after?, bind_fun_some] at hbc
    exact ⟨b, hb, Std.HashMap.mem_iff_isSome_getElem?.2 (by simp [hbc])⟩
  choose! name hname hmem using hname
  have hnodup : ((range (h.supers.size + 1)).map name).Nodup := by
    refine List.Nodup.map_on (fun i hi j hj hij => ?_) nodup_range
    have hno : ∀ i j, i < j → h.after? i a = some (name j) → h.after? j a ≠ some (name j) := by
      intro i j hlt hi hj
      obtain ⟨k, rfl⟩ := Nat.exists_eq_add_of_lt hlt
      rw [Nat.add_assoc, after?_add, hi, bind_some] at hj
      exact hacyclic _ (transGen_of_after? hj)
    rcases Nat.lt_trichotomy i j with hlt | heq | hlt
    · exact absurd (hname j hj) (hno i j hlt (hij ▸ hname i hi))
    · exact heq
    · exact absurd (hname i hi) (hno j i hlt (hij ▸ hname j hj))
  have hsubset : (range (h.supers.size + 1)).map name ⊆ h.supers.keys := by
    intro b hb
    obtain ⟨k, hk, rfl⟩ := mem_map.1 hb
    exact Std.HashMap.mem_keys.2 (hmem k hk)
  have hle := (hnodup.subperm hsubset).length_le
  simp only [length_map, length_range, Std.HashMap.length_keys] at hle
  omega

/-! ### The two ways up -/

theorem above_of_mem_chain? {fuel : Nat} {l : List Text} (hl : h.chain? fuel a = some l)
    (ht : t ∈ l) : h.Above a t := by
  fun_induction chain? h fuel a generalizing l with
  | case1 => cases hl
  | case2 => cases hl; cases ht
  | case3 =>
    cases hl
    obtain rfl := mem_singleton.1 ht
    exact .refl
  | case4 => cases hl
  | case5 fuel a _ _ next hnext ih =>
    obtain ⟨l', hl', rfl⟩ := map_eq_some_iff.1 hl
    rcases mem_cons.1 ht with rfl | ht
    · exact .refl
    · exact .head hnext (ih hl' ht)

theorem mem_chain?_or_above (htop : ∀ b, ¬ h.Extends objectName b) {fuel : Nat} {l : List Text}
    (hl : h.chain? fuel a = some l) (hat : h.Above a t) : t ∈ l ∨ ∀ s ∈ l, h.Above s t := by
  fun_induction chain? h fuel a generalizing l with
  | case1 => cases hl
  | case2 =>
    cases hl
    exact .inr nofun
  | case3 =>
    cases hl
    rcases hat.cases_head with rfl | ⟨b, hb, -⟩
    · exact .inl (mem_singleton_self _)
    · exact absurd hb (htop b)
  | case4 => cases hl
  | case5 fuel a _ _ next hnext ih =>
    obtain ⟨l', hl', rfl⟩ := map_eq_some_iff.1 hl
    rcases hat.cases_head with rfl | ⟨c, hc, hct⟩
    · exact .inl mem_cons_self
    · obtain rfl := extends_unique hnext hc
      rcases ih hl' hct with hmem | habove
      · exact .inl (mem_cons_of_mem _ hmem)
      · exact .inr (forall_mem_cons.2 ⟨hat, habove⟩)

theorem climb?_spec {among : List Text} {fuel : Nat} (hs : h.climb? among fuel b = some s) :
    h.Above b s ∧ s ∈ among ∧ ∀ t ∈ among, h.Above b t → h.Above s t := by
  fun_induction climb? h among fuel b with
  | case1 => cases hs
  | case2 => cases hs
  | case3 fuel b _ hmem =>
    cases hs
    exact ⟨.refl, by simpa using hmem, fun t _ hbt => hbt⟩
  | case4 => cases hs
  | case5 fuel b _ hmem next hnext ih =>
    obtain ⟨habove, hamong, hleast⟩ := ih hs
    refine ⟨.head hnext habove, hamong, fun t ht hbt => ?_⟩
    rcases hbt.cases_head with rfl | ⟨c, hc, hct⟩
    · exact absurd (by simpa using ht) hmem
    · obtain rfl := extends_unique hnext hc
      exact hleast t ht hct

theorem common?_of_classes (ha : ¬ h.IsInterface a) (hb : ¬ h.IsInterface b) :
    h.common? a b = (h.chain? h.depth a).bind fun l => h.climb? l h.depth b := by
  unfold IsInterface at ha hb
  rw [common?, if_neg (not_or.2 ⟨ha, hb⟩)]
  cases h.chain? h.depth a <;> rfl

theorem isJoin_of_common? (htop : ∀ b, ¬ h.Extends objectName b) (ha : ¬ h.IsInterface a)
    (hb : ¬ h.IsInterface b) (hs : h.common? a b = some s) : IsJoin h.Above a b s := by
  rw [common?_of_classes ha hb] at hs
  obtain ⟨l, hl, hs⟩ := bind_eq_some_iff.1 hs
  obtain ⟨hbs, hmem, hfirst⟩ := climb?_spec hs
  refine ⟨above_of_mem_chain? hl hmem, hbs, fun t hat hbt => ?_⟩
  rcases mem_chain?_or_above htop hl hat with ht | habove
  · exact hfirst t ht hbt
  · exact habove s hmem

/-! ### When there is an answer -/

/-- A table without circles, in which every superclass has a name and the top has none. -/
structure Ordered (h : ClassTable) : Prop where
  acyclic : Acyclic h.Extends
  named : ∀ a, ¬ h.Extends a []
  top : ∀ b, ¬ h.Extends objectName b

/-- A name that has the top above it.  The empty text is no name. -/
def Rooted (h : ClassTable) (a : Text) : Prop := a ≠ [] ∧ h.Above a objectName

theorem Rooted.head (ha : h.Rooted a) (hne : a ≠ objectName) (hnamed : ∀ a, ¬ h.Extends a []) :
    ∃ b, h.Extends a b ∧ h.Rooted b := by
  rcases ha.2.cases_head with rfl | ⟨b, hab, hb⟩
  · exact absurd rfl hne
  · exact ⟨b, hab, fun hempty => hnamed a (hempty ▸ hab), hb⟩

theorem exists_chain? (hh : h.Ordered) {fuel n : Nat} (hn : h.after? n a = none) (hlt : n < fuel)
    (ha : h.Rooted a) : ∃ l, h.chain? fuel a = some l := by
  induction fuel generalizing a n with
  | zero => exact absurd hlt (Nat.not_lt_zero n)
  | succ fuel ih =>
    rw [chain?, if_neg (by simpa using ha.1)]
    split
    · exact ⟨_, rfl⟩
    · next hne =>
      obtain ⟨b, hab, hb⟩ := ha.head hne hh.named
      cases n with
      | zero => cases hn
      | succ n =>
        rw [after?_succ hab] at hn
        obtain ⟨l, hl⟩ := ih hn (Nat.lt_of_succ_lt_succ hlt) hb
        rw [show h.supers[a]? = some b from hab]
        exact ⟨a :: l, by simp [hl]⟩

theorem exists_climb? (hh : h.Ordered) {among : List Text} (hamong : objectName ∈ among)
    {fuel n : Nat} (hn : h.after? n b = none) (hlt : n < fuel) (hb : h.Rooted b) :
    ∃ s, h.climb? among fuel b = some s := by
  induction fuel generalizing b n with
  | zero => exact absurd hlt (Nat.not_lt_zero n)
  | succ fuel ih =>
    rw [climb?, if_neg (by simpa using hb.1)]
    split
    · exact ⟨_, rfl⟩
    · next hmem =>
      obtain ⟨c, hbc, hc⟩ := hb.head (fun heq => hmem (by simpa [heq] using hamong)) hh.named
      cases n with
      | zero => cases hn
      | succ n =>
        rw [after?_succ hbc] at hn
        rw [show h.supers[b]? = some c from hbc]
        exact ih hn (Nat.lt_of_succ_lt_succ hlt) hc

theorem objectName_mem_chain? (hh : h.Ordered) {fuel : Nat} {l : List Text}
    (hl : h.chain? fuel a = some l) (ha : a ≠ []) : objectName ∈ l := by
  fun_induction chain? h fuel a generalizing l with
  | case1 => cases hl
  | case2 fuel a hempty => exact absurd (by simpa using hempty) ha
  | case3 =>
    cases hl
    exact mem_singleton_self _
  | case4 => cases hl
  | case5 fuel a _ _ next hnext ih =>
    obtain ⟨l', hl', rfl⟩ := map_eq_some_iff.1 hl
    exact mem_cons_of_mem _ (ih hl' fun hempty => hh.named a (hempty ▸ hnext))

theorem exists_common? (hh : h.Ordered) (ha : ¬ h.IsInterface a) (hb : ¬ h.IsInterface b)
    (hra : h.Rooted a) (hrb : h.Rooted b) : ∃ s, h.common? a b = some s := by
  obtain ⟨n, hlt, hn⟩ := exists_after?_eq_none hh.acyclic a
  obtain ⟨m, hlt', hm⟩ := exists_after?_eq_none hh.acyclic b
  obtain ⟨l, hl⟩ := exists_chain? hh hn hlt hra
  obtain ⟨s, hs⟩ := exists_climb? hh (objectName_mem_chain? hh hl hra.1) hm hlt' hrb
  exact ⟨s, by rw [common?_of_classes ha hb, hl]; exact hs⟩

/-- Two classes have an answer exactly if both lead to the top, and it is their join. -/
theorem common?_eq_some_iff (hh : h.Ordered) (ha : ¬ h.IsInterface a) (hb : ¬ h.IsInterface b) :
    h.common? a b = some s ↔ h.Rooted a ∧ h.Rooted b ∧ IsJoin h.Above a b s := by
  constructor
  · intro hs
    have hjoin := isJoin_of_common? hh.top ha hb hs
    rw [common?_of_classes ha hb] at hs
    obtain ⟨l, hl, hs⟩ := bind_eq_some_iff.1 hs
    have hmem := (climb?_spec hs).2.1
    have hane : a ≠ [] := by
      rintro rfl
      cases hl
      cases hmem
    have hbne : b ≠ [] := by
      rintro rfl
      cases hs
    have hroot := above_of_mem_chain? hl (objectName_mem_chain? hh hl hane)
    refine ⟨⟨hane, hroot⟩, ⟨hbne, hjoin.right.trans ?_⟩, hjoin⟩
    rcases hjoin.left.total_of_right_unique extends_unique hroot with habove | habove
    · exact habove
    · rcases habove.cases_head with heq | ⟨c, hc, -⟩
      · rw [heq]
      · exact absurd hc (hh.top c)
  · rintro ⟨hra, hrb, hjoin⟩
    obtain ⟨s', hs'⟩ := exists_common? hh ha hb hra hrb
    rw [hs', (isJoin_of_common? hh.top ha hb hs').unique hh.acyclic hjoin]

theorem common?_comm (hh : h.Ordered) (ha : ¬ h.IsInterface a) (hb : ¬ h.IsInterface b) :
    h.common? a b = h.common? b a := by
  ext s
  rw [common?_eq_some_iff hh ha hb, common?_eq_some_iff hh hb ha]
  exact ⟨fun ⟨hra, hrb, hs⟩ => ⟨hrb, hra, hs.symm⟩, fun ⟨hrb, hra, hs⟩ => ⟨hra, hrb, hs.symm⟩⟩

/-- In an ordered table the ways up from two classes end, and the class in common is the least
common ancestor.  It is found exactly if both have the top above them, and the order of the two does
not matter. With an interface only the top is in common. -/
theorem least_common_ancestor (hh : h.Ordered) (a b : Text) :
    (h.IsInterface a ∨ h.IsInterface b → h.common? a b = some objectName) ∧
    (¬ h.IsInterface a → ¬ h.IsInterface b →
      (∃ n < h.depth, h.after? n a = none) ∧ (∃ n < h.depth, h.after? n b = none) ∧
      ((∃ s, h.common? a b = some s) ↔ h.Rooted a ∧ h.Rooted b) ∧
      (∀ s, h.common? a b = some s → IsJoin h.Above a b s) ∧
      h.common? a b = h.common? b a) := by
  refine ⟨fun hinterface => ?_, fun ha hb => ⟨?_, ?_, ?_, ?_, ?_⟩⟩
  · exact if_pos hinterface
  · exact exists_after?_eq_none hh.acyclic a
  · exact exists_after?_eq_none hh.acyclic b
  · constructor
    · rintro ⟨s, hs⟩
      obtain ⟨hra, hrb, -⟩ := (common?_eq_some_iff hh ha hb).1 hs
      exact ⟨hra, hrb⟩
    · rintro ⟨hra, hrb⟩
      exact exists_common? hh ha hb hra hrb
  · exact fun s hs => isJoin_of_common? hh.top ha hb hs
  · exact common?_comm hh ha hb

/-- Two classes with a superclass that is not in the table, and an interface. -/
def orphans : ClassTable := ((({} : ClassTable).addClass [97] [99]).addClass [98] [99]).addInterface
    [105]

def kin : ClassTable := orphans.addClass [99] objectName

theorem extends_orphans :
    orphans.Extends a b ↔ (a, b) ∈ [([97], [99]), ([98], [99]), ([105], objectName)] := by
  change ((((({} : ClassTable).addClass [97] [99]).addClass [98] [99]).addClass
    [105] objectName).Extends a b) ↔ _
  simp only [extends_addClass]
  grind [Extends]

theorem isInterface_orphans : orphans.IsInterface a ↔ a = [105] := by
  rw [eq_comm]
  simp [IsInterface, orphans, addInterface, addClass]

def kinPairs : List (Text × Text) := [([97], [99]), ([98], [99]), ([99], objectName),
    ([105], objectName)]

theorem extends_kin : kin.Extends a b ↔ (a, b) ∈ kinPairs := by
  rw [kin, extends_addClass, extends_orphans, kinPairs]
  grind

theorem isInterface_kin : kin.IsInterface a ↔ a = [105] := by
  rw [kin, isInterface_addClass, isInterface_orphans]

theorem class_kin (ha : a ≠ [105]) : ¬ kin.IsInterface a := fun hi => ha (isInterface_kin.1 hi)

/-- The number of steps from a name of the table, or of one below it, to the top. -/
def height : Text → Nat
  | [99] | [105] => 1
  | [97] | [98] => 2
  | [100] => 3
  | [101] => 4
  | _ => 0

theorem objectName_eq :
    objectName = [106, 97, 118, 97, 47, 108, 97, 110, 103, 47, 79, 98, 106, 101, 99, 116] := by
  decide

theorem ordered_kin : kin.Ordered := by
  have hpairs : ∀ p ∈ kinPairs, height p.2 < height p.1 ∧ p.2 ≠ [] ∧ p.1 ≠ objectName := by
    rw [kinPairs, objectName_eq]
    decide
  have hkin {a b : Text} (hab : kin.Extends a b) := hpairs (a, b) (extends_kin.1 hab)
  exact ⟨acyclic_of_rank height fun a b hab => (hkin hab).1, fun a hab => (hkin hab).2.1 rfl,
    fun b hab => (hkin hab).2.2 rfl⟩

theorem isJoin_kin : IsJoin kin.Above [97] [98] [99] := by
  have hstep {a : Text} (ha : (a, [99]) ∈ kinPairs) : kin.Extends a [99] := extends_kin.2 ha
  refine ⟨.single (hstep (by decide)), .single (hstep (by decide)), fun t hat hbt => ?_⟩
  rcases hat.cases_head with rfl | ⟨c, hc, hct⟩
  · -- the first class is above no other one
    have hleaf : ∀ p ∈ kinPairs, p.2 ≠ [97] := by decide
    rcases hbt.cases_tail with heq | ⟨c, -, hc⟩
    · cases heq
    · exact absurd rfl (hleaf _ (extends_kin.1 hc))
  · obtain rfl := extends_unique (hstep (by decide)) hc
    exact hct

theorem common?_kin : kin.common? [97] [98] = some [99] := by
  have htop : kin.Above [99] objectName := .single (extends_kin.2 (by decide))
  exact (common?_eq_some_iff ordered_kin (class_kin (by decide)) (class_kin (by decide))).2
    ⟨⟨by decide, isJoin_kin.left.trans htop⟩, ⟨by decide, isJoin_kin.right.trans htop⟩, isJoin_kin⟩

theorem least_common_ancestor_kin : kin.Ordered ∧ kin.Rooted [97] ∧ kin.Rooted [98] ∧
    kin.common? [98] [97] = some [99] ∧ IsJoin kin.Above [97] [98] [99] ∧
    kin.common? [97] [105] = some objectName := by
  obtain ⟨-, -, hiff, hjoin, hcomm⟩ :=
    (least_common_ancestor ordered_kin [97] [98]).2 (class_kin (by decide)) (class_kin (by decide))
  obtain ⟨hra, hrb⟩ := hiff.1 ⟨_, common?_kin⟩
  refine ⟨ordered_kin, hra, hrb, hcomm ▸ common?_kin, hjoin _ common?_kin, ?_⟩
  exact (least_common_ancestor ordered_kin [97] [105]).1 (.inr (isInterface_kin.2 rfl))

end ClassTable

/-! ## Classes announced on top of a table -/

namespace Hierarchy

variable {H base : Hierarchy} {d : DefinedClass} {a b c s t : Text}

def Extends : Hierarchy → Text → Text → Prop
  | unknown, _, _ => False
  | table classes, a, b => classes.Extends a b
  | defining base d, a, b => base.Extends a b ∨ a = d.name ∧ b = d.super

def IsInterface : Hierarchy → Text → Prop
  | unknown, _ => False
  | table classes, a => classes.IsInterface a
  | defining base d, a => base.IsInterface a ∨ d.isInterface = true ∧ a = d.name

def announced : Hierarchy → List DefinedClass
  | unknown | table _ => []
  | defining base d => d :: base.announced

def Fresh : Hierarchy → Prop
  | unknown | table _ => True
  | defining base d => base.Fresh ∧ ¬ base.IsInterface d.name ∧ ∀ b, ¬ base.Extends d.name b

/-- A hierarchy without circles, in which nothing is above the top and each class is
announced once. -/
structure Stacked (H : Hierarchy) : Prop where
  fresh : H.Fresh
  acyclic : Acyclic H.Extends
  top : ∀ b, ¬ H.Extends objectName b

def ExtendsClasses (H : Hierarchy) : Prop := ∀ a b, H.Extends a b → ¬ H.IsInterface b

theorem extends_defining : base.Extends ≤ (defining base d).Extends :=
  fun _ _ h => .inl h

theorem Stacked.below (hH : (defining base d).Stacked) : base.Stacked :=
  ⟨hH.fresh.1, hH.acyclic.mono extends_defining, fun b hb => hH.top b (.inl hb)⟩

theorem ExtendsClasses.below (hH : (defining base d).ExtendsClasses) : base.ExtendsClasses :=
  fun a b hab hb => hH a b (.inl hab) (.inl hb)

theorem Fresh.rightUnique (hH : H.Fresh) : Relator.RightUnique H.Extends := by
  induction H with
  | unknown => exact fun a b c hab => hab.elim
  | table h => exact ClassTable.extends_unique
  | defining base d ih =>
    rintro a b c (hab | ⟨rfl, rfl⟩) (hac | ⟨hac, rfl⟩)
    · exact ih hH.1 hab hac
    · exact absurd (hac ▸ hab) (hH.2.2 b)
    · exact absurd hac (hH.2.2 c)
    · rfl

theorem eq_or_extends (hab : ReflTransGen H.Extends a b) : a = b ∨ ∃ c, H.Extends c b := by
  rcases hab.cases_tail with heq | ⟨c, -, hcb⟩
  · exact .inl heq.symm
  · exact .inr ⟨c, hcb⟩

theorem eq_of_above (ha : ∀ b, ¬ H.Extends a b) (has : ReflTransGen H.Extends a s) : a = s := by
  rcases has.cases_head with heq | ⟨c, hac, -⟩
  · exact heq
  · exact absurd hac (ha c)

theorem not_join_of_interface (hH : (defining base d).Fresh)
    (hclasses : (defining base d).ExtendsClasses) (hd : d.isInterface = true) (hne : d.name ≠ b) :
    ¬ IsJoin (ReflTransGen base.Extends) d.name b s := by
  intro hjoin
  obtain rfl := eq_of_above hH.2.2 hjoin.left
  rcases eq_or_extends hjoin.right with heq | ⟨c, hc⟩
  · exact hne heq.symm
  · exact hclasses c _ (.inl hc) (.inr ⟨hd, rfl⟩)

theorem isJoin_announced (hH : (defining base d).Stacked)
    (hjoin : IsJoin (ReflTransGen base.Extends) d.super b s) :
    IsJoin (ReflTransGen (defining base d).Extends) d.name b s := by
  have hunique := hH.fresh.rightUnique
  have hedge : (defining base d).Extends d.name d.super := .inr ⟨rfl, rfl⟩
  have hsub : base.Extends ≤ (defining base d).Extends := extends_defining
  refine (hjoin.mono hsub hunique hH.acyclic).head hunique hedge fun hba => ?_
  -- below the class, the other name would reach it in the old hierarchy, which ends there
  have hbelow : ReflTransGen base.Extends b d.name :=
    reflTransGen_of_between hsub hunique hH.acyclic hjoin.right hba
      (.head hedge (ReflTransGen.mono hsub _ _ hjoin.left))
  have hback : ReflTransGen base.Extends s d.name := by
    rcases hjoin.right.total_of_right_unique hH.fresh.1.rightUnique hbelow with hback | hback
    · exact hback
    · rw [eq_of_above hH.fresh.2.2 hback]
  exact hH.acyclic d.name (.head' hedge (ReflTransGen.mono hsub _ _ (hjoin.left.trans hback)))

/-- What is right to answer about two names: the top if one of them is an interface, and otherwise
the join along the superclasses. -/
def Answer (H : Hierarchy) (a b s : Text) : Prop :=
  (H.IsInterface a ∨ H.IsInterface b) ∧ s = objectName ∨
    ¬ H.IsInterface a ∧ ¬ H.IsInterface b ∧ IsJoin (ReflTransGen H.Extends) a b s

theorem Answer.symm (h : H.Answer a b s) : H.Answer b a s := by
  rcases h with ⟨hi, rfl⟩ | ⟨ha, hb, hjoin⟩
  · exact .inl ⟨hi.symm, rfl⟩
  · exact .inr ⟨hb, ha, hjoin.symm⟩

theorem Answer.announce (hH : (defining base d).Stacked)
    (hclasses : (defining base d).ExtendsClasses) (hne : a ≠ b) (h : base.Answer a b s) :
    (defining base d).Answer a b s := by
  rcases h with ⟨hi, rfl⟩ | ⟨ha, hb, hjoin⟩
  · exact .inl ⟨hi.imp .inl .inl, rfl⟩
  · refine .inr ⟨?_, ?_, hjoin.mono extends_defining hH.fresh.rightUnique hH.acyclic⟩
    · rintro (hi | ⟨hd, rfl⟩)
      · exact ha hi
      · exact not_join_of_interface hH.fresh hclasses hd hne hjoin
    · rintro (hi | ⟨hd, rfl⟩)
      · exact hb hi
      · exact not_join_of_interface hH.fresh hclasses hd hne.symm hjoin.symm

/-- What is answered about an announced class in place of the hierarchy below. -/
def announcedCommon? (base : Hierarchy) (d : DefinedClass) (other : Text) : Option Text :=
  if d.isInterface then some objectName
  else if other = d.super then some other
  else base.common? d.super other

theorem answer_announced (hH : (defining base d).Stacked)
    (hclasses : (defining base d).ExtendsClasses)
    (hbase : d.super ≠ b → base.common? d.super b = some s → base.Answer d.super b s)
    (hne : b ≠ d.name) (hs : announcedCommon? base d b = some s) :
    (defining base d).Answer d.name b s := by
  unfold announcedCommon? at hs
  split at hs
  · next hd =>
    cases hs
    exact .inl ⟨.inl (.inr ⟨hd, rfl⟩), rfl⟩
  · next hd =>
    have hedge : (defining base d).Extends d.name d.super := .inr ⟨rfl, rfl⟩
    have hname : ¬ (defining base d).IsInterface d.name := by
      rintro (hi | ⟨hi, -⟩)
      · exact hH.fresh.2.1 hi
      · exact hd hi
    split at hs
    · next heq =>
      cases hs
      subst heq
      exact .inr ⟨hname, hclasses _ _ hedge, .single hedge, .refl, fun t _ ht => ht⟩
    · next hsuper =>
      rcases hbase (Ne.symm hsuper) hs with ⟨hi, rfl⟩ | ⟨-, hb, hjoin⟩
      · refine .inl ⟨.inr (.inl (hi.resolve_left fun hi => ?_)), rfl⟩
        exact hclasses _ _ hedge (.inl hi)
      · refine .inr ⟨hname, ?_, isJoin_announced hH hjoin⟩
        rintro (hi | ⟨hi, -⟩)
        · exact hb hi
        · exact hd hi

theorem common?_defining_eq (base : Hierarchy) (d : DefinedClass) (hne : a ≠ b) :
    (defining base d).common? a b = (base.common? a b).or
      (if d.name = a then announcedCommon? base d b
      else if d.name = b then announcedCommon? base d a else none) := by
  rw [common?]
  cases base.common? a b with
  | some s => rfl
  | none =>
    by_cases ha : d.name = a
    · subst ha
      simp only [otherOf?, if_true, hne.symm, if_false, none_or]
      rfl
    · by_cases hb : d.name = b
      · subst hb
        simp only [otherOf?, ha, if_true, hne, if_false, none_or]
        rfl
      · simp only [otherOf?, ha, hb, if_false, none_or]

/-- By induction on the classes announced: an answer is right in the whole hierarchy. -/
theorem answer_of_common? (hH : H.Stacked) (hclasses : H.ExtendsClasses) (hne : a ≠ b)
    (hs : H.common? a b = some s) : H.Answer a b s := by
  induction H generalizing a b s with
  | unknown => cases hs
  | table h =>
    by_cases hi : h.IsInterface a ∨ h.IsInterface b
    · rw [show (table h).common? a b = some objectName from if_pos hi] at hs
      cases hs
      exact .inl ⟨hi, rfl⟩
    · obtain ⟨ha, hb⟩ := not_or.1 hi
      exact .inr ⟨ha, hb, ClassTable.isJoin_of_common? hH.top ha hb hs⟩
  | defining base d ih =>
    rw [common?_defining_eq base d hne, or_eq_some_iff] at hs
    rcases hs with hs | ⟨-, hs⟩
    · exact (ih hH.below hclasses.below hne hs).announce hH hclasses hne
    · split_ifs at hs with ha hb
      · subst ha
        exact answer_announced hH hclasses (ih hH.below hclasses.below) hne.symm hs
      · subst hb
        exact (answer_announced hH hclasses (ih hH.below hclasses.below) hne hs).symm

/-- The class directly above another one; an interface has only the top above it. -/
def Parent (H : Hierarchy) (a b : Text) : Prop :=
  H.IsInterface a ∧ b = objectName ∨ ¬ H.IsInterface a ∧ H.Extends a b

/-- A name at or below another one, where everything is below the top. -/
def Below (H : Hierarchy) (a b : Text) : Prop := b = objectName ∨ ReflTransGen H.Parent a b

theorem parent_iff (ha : ¬ H.IsInterface a) : H.Parent a b ↔ H.Extends a b := by
  simp [Parent, ha]

theorem above_iff (hclasses : H.ExtendsClasses) (ha : ¬ H.IsInterface a) :
    ReflTransGen H.Parent a b ↔ ReflTransGen H.Extends a b := by
  constructor
  · intro hab
    induction hab using ReflTransGen.head_induction_on with
    | refl => exact .refl
    | head hac _ ih =>
      have hac := (parent_iff ha).1 hac
      exact .head hac (ih (hclasses _ _ hac))
  · intro hab
    induction hab using ReflTransGen.head_induction_on with
    | refl => exact .refl
    | head hac _ ih => exact .head ((parent_iff ha).2 hac) (ih (hclasses _ _ hac))

theorem eq_top_of_above (hH : H.Stacked) (ht : ReflTransGen H.Parent objectName t) :
    t = objectName := by
  induction ht with
  | refl => rfl
  | tail _ hparent ih =>
    subst ih
    rcases hparent with ⟨-, htop⟩ | ⟨-, hextends⟩
    · exact htop
    · exact absurd hextends (hH.top _)

theorem eq_top_of_below (hH : H.Stacked) (hclasses : H.ExtendsClasses) (ha : H.IsInterface a)
    (hne : a ≠ b) (hat : H.Below a t) (hbt : H.Below b t) : t = objectName := by
  rcases hat with htop | hat
  · exact htop
  rcases hbt with htop | hbt
  · exact htop
  rcases hat.cases_head with rfl | ⟨c, ⟨-, rfl⟩ | ⟨hclass, -⟩, hct⟩
  · rcases hbt.cases_tail with heq | ⟨c, -, ⟨-, htop⟩ | ⟨-, hc⟩⟩
    · exact absurd heq hne
    · exact htop
    · exact absurd ha (hclasses c _ hc)
  · exact eq_top_of_above hH hct
  · exact absurd ha hclass

/-- Whatever a stack of announced classes on top of a table answers about two names is the least
name above both, in the table extended with the announced superclasses. -/
theorem isJoin_of_answered (hH : H.Stacked) (hclasses : H.ExtendsClasses) (hne : a ≠ b)
    (hs : H.common? a b = some s) : IsJoin H.Below a b s := by
  rcases answer_of_common? hH hclasses hne hs with ⟨hi, rfl⟩ | ⟨ha, hb, hjoin⟩
  · refine ⟨.inl rfl, .inl rfl, fun t hat hbt => .inl ?_⟩
    rcases hi with hi | hi
    · exact eq_top_of_below hH hclasses hi hne hat hbt
    · exact eq_top_of_below hH hclasses hi hne.symm hbt hat
  · refine ⟨.inr ((above_iff hclasses ha).2 hjoin.left),
      .inr ((above_iff hclasses hb).2 hjoin.right), fun t hat hbt => ?_⟩
    rcases hat with htop | hat
    · exact .inl htop
    rcases hbt with htop | hbt
    · exact .inl htop
    have hst := hjoin.least t ((above_iff hclasses ha).1 hat) ((above_iff hclasses hb).1 hbt)
    have hclass : ¬ H.IsInterface s := by
      rcases eq_or_extends hjoin.left with rfl | ⟨c, hc⟩
      · exact ha
      · exact hclasses c s hc
    exact .inr ((above_iff hclasses hclass).2 hst)

open ClassTable (kin kinPairs height extends_kin isInterface_kin class_kin objectName_eq ordered_kin
    common?_kin
  orphans extends_orphans isInterface_orphans extends_addClass extends_name)

def line : Hierarchy :=
  defining (defining (.table kin) ⟨[100], [97], false⟩) ⟨[101], [100], false⟩

theorem extends_line (hab : line.Extends a b) :
    height b < height a ∧ a ≠ objectName ∧ b ≠ [105] := by
  have hpairs : ∀ p ∈ ([101], [100]) :: ([100], [97]) :: kinPairs,
      height p.2 < height p.1 ∧ p.1 ≠ objectName ∧ p.2 ≠ [105] := by
    rw [kinPairs, objectName_eq]
    decide
  refine hpairs (a, b) ?_
  rcases hab with (hab | ⟨rfl, rfl⟩) | ⟨rfl, rfl⟩
  · exact .tail _ (.tail _ (extends_kin.1 hab))
  · exact .tail _ (.head _)
  · exact .head _

theorem isInterface_line (ha : line.IsInterface a) : a = [105] := by
  rcases ha with (ha | ⟨ha, -⟩) | ⟨ha, -⟩
  · exact isInterface_kin.1 ha
  · cases ha
  · cases ha

theorem stacked_line : line.Stacked := by
  have hnew : ∀ p ∈ ([100], [97]) :: kinPairs, p.1 ≠ [101] := by decide
  have hnew' : ∀ p ∈ kinPairs, p.1 ≠ [100] := by decide
  refine ⟨⟨⟨trivial, ?_, ?_⟩, ?_, ?_⟩, acyclic_of_rank _ fun a b hab => (extends_line hab).1,
    fun b hab => (extends_line hab).2.1 rfl⟩
  · exact class_kin (by decide)
  · exact fun b hb => hnew' _ (extends_kin.1 hb) rfl
  · exact fun hi => absurd (isInterface_line (.inl hi)) (by decide)
  · rintro b (hb | ⟨h, -⟩)
    · exact hnew _ (.tail _ (extends_kin.1 hb)) rfl
    · exact absurd h (by decide)

theorem common?_line : line.common? [101] [98] = some [99] := by
  have hnone {a : Text} (ha : a ≠ [105]) (hnew : ∀ p ∈ kinPairs, p.1 ≠ a) (hne : a ≠ objectName) :
      (table kin).common? a [98] = none := by
    by_contra hsome
    obtain ⟨s, hs⟩ := ne_none_iff_exists'.1 hsome
    obtain ⟨⟨-, hup⟩, -⟩ := (ClassTable.common?_eq_some_iff ordered_kin (class_kin ha)
      (class_kin (by decide))).1 hs
    rcases hup.cases_head with heq | ⟨c, hc, -⟩
    · exact hne heq
    · exact hnew _ (extends_kin.1 hc) rfl
  rw [line, common?_defining_eq _ _ (by decide), common?_defining_eq _ _ (by decide),
    hnone (by decide) (by decide) (by decide)]
  simp [announcedCommon?]
  rw [common?_defining_eq _ _ (by decide), hnone (by decide) (by decide) (by decide)]
  simp [announcedCommon?]
  exact common?_kin

theorem isJoin_of_answered_line :
    line.Stacked ∧ line.ExtendsClasses ∧ line.common? [101] [98] = some [99] ∧ IsJoin line.Below
    [101] [98] [99] := by
  have hclasses : line.ExtendsClasses :=
    fun a b hab hb => (extends_line hab).2.2 (isInterface_line hb)
  exact ⟨stacked_line, hclasses, common?_line,
    isJoin_of_answered stacked_line hclasses (by decide) common?_line⟩

/-- A class announced below a class of the table that has an interface as its superclass. -/
def misplaced : Hierarchy :=
  defining (.table ((({} : ClassTable).addClass [97] [105]).addInterface [105]))
    ⟨[100], [97], false⟩

theorem isInterface_misplaced : misplaced.IsInterface a ↔ [105] = a := by
  simp [misplaced, IsInterface, ClassTable.IsInterface, ClassTable.addInterface,
    ClassTable.addClass]

theorem extends_misplaced :
    misplaced.Extends a b ↔ (a, b) ∈ [([97], [105]), ([105], objectName), ([100], [97])] := by
  change ((({} : ClassTable).addClass [97] [105]).addClass [105] objectName).Extends a b ∨ _ ↔ _
  simp only [extends_addClass]
  grind [ClassTable.Extends]

theorem stacked_misplaced : misplaced.Stacked := by
  have hpairs : ∀ p ∈ [([97], [105]), ([105], objectName), ([100], [97])],
      height p.2 < height p.1 ∧ p.1 ≠ objectName := by
    rw [objectName_eq]
    decide
  refine ⟨⟨trivial, fun hi => absurd (isInterface_misplaced.1 (.inl hi)) (by decide),
    fun b hb => ?_⟩, acyclic_of_rank _ fun a b hab => (hpairs _ (extends_misplaced.1 hab)).1,
    fun b hab => (hpairs _ (extends_misplaced.1 hab)).2 rfl⟩
  change ((({} : ClassTable).addClass [97] [105]).addClass [105] objectName).Extends [100] b at hb
  rw [extends_addClass, extends_addClass, if_neg (by decide), if_neg (by decide)] at hb
  simp [ClassTable.Extends] at hb

/-- Where a class of the table has an interface as its superclass, the answer may be too high. -/
theorem not_isJoin_misplaced :
    misplaced.Stacked ∧ (∀ d ∈ misplaced.announced, ¬ misplaced.IsInterface d.super) ∧
    misplaced.common? [100] [105] = some objectName ∧ ¬ IsJoin misplaced.Below [100]
    [105] objectName := by
  refine ⟨stacked_misplaced, ?_, ?_, fun hjoin => ?_⟩
  · intro d hd hi
    obtain rfl := mem_singleton.1 hd
    exact absurd (isInterface_misplaced.1 hi) (by decide)
  · rw [misplaced, common?_defining_eq _ _ (by decide), common?, ClassTable.common?, if_pos]
    · rfl
    · simp [ClassTable.addInterface]
  · have hstep {a b : Text} (ha : a ≠ [105]) (hab : misplaced.Extends a b) : misplaced.Parent a b :=
      .inr ⟨fun hi => ha (isInterface_misplaced.1 hi).symm, hab⟩
    have hlow : misplaced.Parent [100] [97] := hstep (by decide) (extends_misplaced.2 (by simp))
    have hup : misplaced.Parent [97] [105] := hstep (by decide) (extends_misplaced.2 (by simp))
    rcases hjoin.least [105] (.inr (.head hlow (.single hup))) (.inr .refl) with heq | habove
    · exact absurd heq (by decide)
    · exact absurd (eq_top_of_above stacked_misplaced habove) (by decide)

/-! ### An announced class and a class of the table -/

/-- A class that could be added to a table: it is new there, and the top is above its superclass. -/
structure Addable (h : ClassTable) (name super : Text) : Prop where
  ordered : (h.addClass name super).Ordered
  fresh : ∀ b, ¬ h.Extends name b
  superClass : ¬ h.IsInterface super
  rooted : h.Above super objectName

namespace Addable

variable {h : ClassTable} {name super : Text}

section

variable (hadd : Addable h name super)

include hadd

theorem le : h.Extends ≤ (h.addClass name super).Extends := by
  intro a b hab
  rw [extends_addClass, if_neg]
  · exact hab
  · rintro rfl
    exact hadd.fresh b hab

theorem table : h.Ordered :=
  ⟨hadd.ordered.acyclic.mono hadd.le, fun a ha => hadd.ordered.named a (hadd.le _ _ ha),
    fun b hb => hadd.ordered.top b (hadd.le _ _ hb)⟩

theorem above_iff (ha : ¬ h.Above a name) : (h.addClass name super).Above a t ↔ h.Above a t := by
  refine ⟨fun hat => ?_, ReflTransGen.mono hadd.le a t⟩
  induction hat with
  | refl => exact .refl
  | tail _ hstep ih =>
    rw [extends_addClass, if_neg] at hstep
    · exact ih.tail hstep
    · rintro rfl
      exact ha ih

theorem super_not_above : ¬ h.Above super name := fun hback =>
  hadd.ordered.acyclic name (.head' extends_name (ReflTransGen.mono hadd.le _ _ hback))

theorem common?_of_isJoin (hia : ¬ h.IsInterface a) (hib : ¬ h.IsInterface b)
    (ha : ¬ h.Above a name) (hb : ¬ h.Above b name) (hra : (h.addClass name super).Rooted a)
    (hrb : (h.addClass name super).Rooted b) (hjoin : IsJoin (h.addClass name super).Above a b s) :
    h.common? a b = some s := by
  have has := (hadd.above_iff ha).1 hjoin.left
  refine (ClassTable.common?_eq_some_iff hadd.table hia hib).2
    ⟨⟨hra.1, (hadd.above_iff ha).1 hra.2⟩, ⟨hrb.1, (hadd.above_iff hb).1 hrb.2⟩, has,
      (hadd.above_iff hb).1 hjoin.right, fun t hat hbt => ?_⟩
  refine (hadd.above_iff fun hs => ha (has.trans hs)).1 (hjoin.least t ?_ ?_)
  · exact (hadd.above_iff ha).2 hat
  · exact (hadd.above_iff hb).2 hbt

theorem common?_eq_none (hia : ¬ h.IsInterface a) (hib : ¬ h.IsInterface b) (ha : h.Above a name) :
    h.common? a b = none := by
  by_contra hne
  obtain ⟨s, hs⟩ := ne_none_iff_exists'.1 hne
  have hroot := ((ClassTable.common?_eq_some_iff hadd.table hia hib).1 hs).1.2
  have htop : objectName = name := by
    rcases hroot.total_of_right_unique ClassTable.extends_unique ha with hup | hup
    · exact hup.cases_head.resolve_right fun ⟨c, hc, _⟩ => hadd.table.top c hc
    · exact (hup.cases_head.resolve_right fun ⟨c, hc, _⟩ => hadd.fresh c hc).symm
  exact hadd.ordered.top super (htop ▸ extends_name)

theorem announcedCommon?_eq (hib : ¬ h.IsInterface b) (hb : ¬ h.Above b name)
    (hrb : (h.addClass name super).Rooted b)
    (hjoin : IsJoin (h.addClass name super).Above name b s) :
    announcedCommon? (.table h) ⟨name, super, false⟩ b = some s := by
  have hedge : (h.addClass name super).Extends name super := extends_name
  have hsuper : (h.addClass name super).Above super s := by
    rcases hjoin.left.cases_head with rfl | ⟨c, hc, hcs⟩
    · exact absurd ((hadd.above_iff hb).1 hjoin.right) hb
    · exact ClassTable.extends_unique hedge hc ▸ hcs
  simp only [announcedCommon?, Bool.false_eq_true, if_false]
  split
  · next heq =>
    subst heq
    rw [hadd.ordered.acyclic.antisymm hsuper (hjoin.least b (.single hedge) .refl)]
  · refine hadd.common?_of_isJoin hadd.superClass hib hadd.super_not_above hb ⟨?_, ?_⟩ hrb
      ⟨hsuper, hjoin.right, fun t hat hbt => hjoin.least t (.head hedge hat) hbt⟩
    · exact fun hempty => hadd.ordered.named name (hempty ▸ hedge)
    · exact ReflTransGen.mono hadd.le _ _ hadd.rooted

theorem common?_comm (hne : a ≠ b) (hia : ¬ h.IsInterface a) (hib : ¬ h.IsInterface b) :
    (defining (.table h) ⟨name, super, false⟩).common? a b =
      (defining (.table h) ⟨name, super, false⟩).common? b a := by
  have htable : (Hierarchy.table h).common? a b = (Hierarchy.table h).common? b a :=
    ClassTable.common?_comm hadd.table hia hib
  rw [common?_defining_eq _ _ hne, common?_defining_eq _ _ hne.symm, htable]
  by_cases ha : name = a
  · rw [if_pos ha, if_neg (ha ▸ hne), if_pos ha]
  · by_cases hb : name = b
    · rw [if_neg ha, if_pos hb, if_pos hb]
    · rw [if_neg ha, if_neg hb, if_neg hb, if_neg ha]

theorem common?_beside (hne : a ≠ b) (hia : ¬ h.IsInterface a) (hib : ¬ h.IsInterface b)
    (ha : ¬ TransGen h.Extends a name) (hb : ¬ TransGen h.Extends b name)
    (hs : (h.addClass name super).common? a b = some s) :
    (defining (.table h) ⟨name, super, false⟩).common? a b = some s := by
  have hoff {c : Text} (hc : ¬ TransGen h.Extends c name) (hcne : name ≠ c) : ¬ h.Above c name :=
    fun hup => (reflTransGen_iff_eq_or_transGen.1 hup).elim hcne hc
  obtain ⟨hra, hrb, hjoin⟩ := (ClassTable.common?_eq_some_iff hadd.ordered hia hib).1 hs
  by_cases hna : name = a
  · subst hna
    rw [common?_defining_eq _ _ hne, if_pos rfl, common?, hadd.common?_eq_none hia hib .refl]
    exact hadd.announcedCommon?_eq hib (hoff hb hne) hrb hjoin
  · by_cases hnb : name = b
    · subst hnb
      rw [hadd.common?_comm hne hia hib, common?_defining_eq _ _ hne.symm, if_pos rfl, common?,
        hadd.common?_eq_none hib hia .refl]
      exact hadd.announcedCommon?_eq hia (hoff ha hna) hra hjoin.symm
    · rw [common?_defining_eq _ _ hne, common?,
        hadd.common?_of_isJoin hia hib (hoff ha hna) (hoff hb hnb) hra hrb hjoin]
      rfl

/-- A class below the announced one gets no answer: its way up is cut off. -/
theorem common?_below (hne : a ≠ b) (hia : ¬ h.IsInterface a) (hib : ¬ h.IsInterface b)
    (ha : TransGen h.Extends a name) :
    (defining (.table h) ⟨name, super, false⟩).common? a b = none := by
  have hup := ha.to_reflTransGen
  rw [common?_defining_eq _ _ hne, common?, hadd.common?_eq_none hia hib hup, none_or, if_neg]
  · split
    · rw [announcedCommon?, if_neg (by simp), if_neg, common?,
        ClassTable.common?_comm hadd.table hadd.superClass hia]
      · exact hadd.common?_eq_none hia hadd.superClass hup
      · rintro rfl
        exact hadd.super_not_above hup
    · rfl
  · rintro rfl
    exact hadd.table.acyclic _ ha

end

end Addable

/-- A class that is announced over a table joins it, but for the classes of the table below it.
What the table would answer with the class in it is answered, and about the classes below there is
no answer. -/
theorem announced_joins_table {h : ClassTable} {name super : Text} (hadd : Addable h name super)
    (hne : a ≠ b) (hs : (h.addClass name super).common? a b = some s) :
    ((h.IsInterface a ∨ h.IsInterface b ∨ ¬ TransGen h.Extends a name ∧
      ¬ TransGen h.Extends b name) →
        (defining (.table h) ⟨name, super, false⟩).common? a b = some s) ∧
    (¬ h.IsInterface a → ¬ h.IsInterface b → TransGen h.Extends a name ∨ TransGen h.Extends b name →
      (defining (.table h) ⟨name, super, false⟩).common? a b = none) := by
  constructor
  · intro hside
    by_cases hi : h.IsInterface a ∨ h.IsInterface b
    · have hbase : (Hierarchy.table h).common? a b = some objectName := if_pos hi
      rw [show (h.addClass name super).common? a b = some objectName from if_pos hi] at hs
      rw [common?_defining_eq _ _ hne, hbase, ← hs, some_or]
    · obtain ⟨hia, hib⟩ := not_or.1 hi
      obtain ⟨ha, hb⟩ := (hside.resolve_left hia).resolve_left hib
      exact hadd.common?_beside hne hia hib ha hb hs
  · rintro hia hib (ha | hb)
    · exact hadd.common?_below hne hia hib ha
    · rw [hadd.common?_comm hne hia hib]
      exact hadd.common?_below hne.symm hib hia hb

theorem announced_joins_orphans : Addable orphans [99] objectName ∧
    (orphans.addClass [99] objectName).common? [97] [98] = some [99] ∧
    (defining (.table orphans) ⟨[99], objectName, false⟩).common? [97] [98] = none := by
  have hnew : ∀ p ∈ [([97], [99]), ([98], [99]), ([105], objectName)],
    p.1 ≠ ([99] : Text) := by decide
  have hclass {a : Text} (ha : a ≠ [105]) : ¬ orphans.IsInterface a :=
    fun hi => ha (isInterface_orphans.1 hi)
  have hadd : Addable orphans [99] objectName :=
    ⟨ordered_kin, fun b hb => hnew _ (extends_orphans.1 hb) rfl, hclass (by decide), .refl⟩
  have hbelow : TransGen orphans.Extends [97] [99] :=
    .single (extends_orphans.2 (by decide))
  exact ⟨hadd, common?_kin, (announced_joins_table hadd (by decide) common?_kin).2
    (hclass (by decide)) (hclass (by decide)) (.inl hbelow)⟩

end Hierarchy

end ClassAssembler
