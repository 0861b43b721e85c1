import ClassAssembler.SymbolTable
import Mathlib.Data.Int.Cast.Lemmas
import Mathlib.Tactic.SplitIfs
import Mathlib.Tactic.Tauto

/-!
# What symbol tables keep

A table is its entries, wherever their buckets are: entering a key adds one entry, and moving to
more buckets keeps them all.  So a key is found exactly if an entry agrees with it, because keys
that agree have the same hash.  The keys of constants agree only if the constants are equal.
-/

namespace ClassAssembler

open List

namespace TableKey

variable {k e k' : TableKey}

@[simp] theorem agrees_refl (k : TableKey) : k.agrees k := by
  simp [agrees]

/-- The key is compared by its fields. -/
def IsPlain (k : TableKey) : Prop := k.kind ≠ bootstrap

/-- Only fields that are compared are hashed. -/
theorem hash_eq_of_agrees (hk : k.IsPlain) (h : k.agrees e) : e.hash = k.hash := by
  simp only [agrees, Bool.and_eq_true, beq_iff_eq] at h
  obtain ⟨hkind, h⟩ := h
  simp only [hash, ← hkind, if_neg (show ¬k.kind = bootstrap from hk)]
  split_ifs at h ⊢ <;> simp_all

theorem agrees_of_agrees (h : k.agrees k') (h' : k.agrees e) : k'.agrees e := by
  simp only [agrees, Bool.and_eq_true, beq_iff_eq] at h h' ⊢
  obtain ⟨hkind, h⟩ := h
  obtain ⟨hkind', h'⟩ := h'
  rw [hkind] at hkind' h h'
  refine ⟨hkind', ?_⟩
  split_ifs at h h' ⊢ <;> grind

theorem kind_eq_of_agrees (h : k.agrees e) : k.kind = e.kind := by
  simp only [agrees, Bool.and_eq_true, beq_iff_eq] at h
  exact h.1

theorem handleBase_le_handle (kind : Nat) : handleBase ≤ handle kind := by
  simp only [handle, handleBase, bootstrap]
  split <;> omega

theorem handle_ne {kind n : Nat} (h : n < handleBase ∨ named ≤ n ∧ n ≤ bootstrap) :
    handle kind ≠ n := by
  simp only [handle, handleBase, named, bootstrap] at *
  split <;> omega

theorem handle_inj {kind kind' : Nat} : handle kind = handle kind' ↔ kind = kind' := by
  simp only [handle, handleBase, bootstrap]
  split <;> split <;> omega

end TableKey

namespace SymbolTable

variable {t : SymbolTable} {k : TableKey} {n load : Nat} {e : TableKey × Nat}

def toList (t : SymbolTable) : List (TableKey × Nat) := t.buckets.toList.flatten

theorem mem_bucket : e ∈ t.bucket e.1.hash ↔ e ∈ t.toList := by
  rw [toList, mem_flatten, bucket]
  constructor
  · intro he
    cases hb : t.buckets[e.1.hash % t.buckets.size]? with
    | none =>
      rw [hb] at he
      cases he
    | some b =>
      rw [hb] at he
      exact ⟨b, Array.mem_toList_iff.2 (Array.mem_of_getElem? hb), he⟩
  · rintro ⟨b, hb, he⟩
    obtain ⟨i, hi⟩ := mem_iff_getElem?.1 hb
    rw [Array.getElem?_toList] at hi
    rw [t.placed i b hi e he, hi]
    exact he

@[simp] theorem toList_ofSize (n : Nat) : (ofSize n).toList = [] := by
  simp [toList, ofSize]

@[simp] theorem toList_empty : ({} : SymbolTable).toList = [] := toList_ofSize 255

theorem mem_push : e ∈ (t.push k n).toList ↔ e = (k, n) ∨ e ∈ t.toList := by
  have hlt : k.hash % t.buckets.size < t.buckets.size := Nat.mod_lt _ t.nonempty
  rw [← mem_bucket, ← mem_bucket]
  simp only [bucket, push, Array.size_modify, Array.getElem?_modify]
  split
  next h =>
    rw [← h, Array.getElem?_eq_getElem hlt]
    simp
  next h =>
    refine (or_iff_right ?_).symm
    rintro rfl
    exact h rfl

theorem mem_foldl_push (l : List (TableKey × Nat)) :
    e ∈ (l.foldl (fun t e => t.push e.1 e.2) t).toList ↔ e ∈ l ∨ e ∈ t.toList := by
  induction l generalizing t with
  | nil => simp
  | cons x l ih =>
    rw [foldl_cons, ih, mem_push, mem_cons, ← or_assoc, or_comm (a := e ∈ l)]

theorem mem_rehash : e ∈ t.rehash.toList ↔ e ∈ t.toList := by
  have hall (bs : List (List (TableKey × Nat))) (u : SymbolTable) :
      e ∈ (bs.foldl (fun t b => b.foldl (fun t e => t.push e.1 e.2) t) u).toList ↔
        e ∈ bs.flatten ∨ e ∈ u.toList := by
    induction bs generalizing u with
    | nil => simp
    | cons b bs ih =>
      rw [foldl_cons, ih, mem_foldl_push, flatten_cons, mem_append, ← or_assoc,
        or_comm (a := e ∈ b)]
  rw [rehash, ← Array.foldl_toList, hall, toList_ofSize]
  exact or_iff_left not_mem_nil

/-- Entering a key adds one entry, whatever the load. -/
theorem mem_put : e ∈ (t.put k n load).toList ↔ e = (k, n) ∨ e ∈ t.toList := by
  rw [put, mem_push]
  split
  · rw [mem_rehash]
  · rfl

theorem mem_of_mem_bucket {hash : Nat} (h : e ∈ t.bucket hash) : e ∈ t.toList := by
  rw [bucket] at h
  cases hb : t.buckets[hash % t.buckets.size]? with
  | none =>
    rw [hb] at h
    cases h
  | some b =>
    rw [hb] at h
    exact mem_flatten.2 ⟨b, Array.mem_toList_iff.2 (Array.mem_of_getElem? hb), h⟩

theorem exists_of_find? {hash : Nat} {p : TableKey → Bool} (h : t.find? hash p = some n) :
    ∃ e, (e, n) ∈ t.toList ∧ p e := by
  obtain ⟨⟨e, m⟩, hfind, rfl⟩ := Option.map_eq_some_iff.1 h
  exact ⟨e, mem_of_mem_bucket (mem_of_find?_eq_some hfind),
    find?_some (p := fun e : TableKey × Nat => p e.1) hfind⟩

theorem get?_empty (k : TableKey) : ({} : SymbolTable).get? k = none := by
  refine Option.eq_none_iff_forall_not_mem.2 fun n h => ?_
  obtain ⟨e, he, -⟩ := exists_of_find? h
  simp at he

theorem isSome_find? {p : TableKey → Bool} (he : e ∈ t.toList) (h : p e.1) :
    (t.find? e.1.hash p).isSome := by
  rw [find?, Option.isSome_map, find?_isSome]
  exact ⟨e, mem_bucket.2 he, h⟩

/-! ## Tables as maps -/

/-- Entries that agree with one key have the same number. -/
def Functional (t : SymbolTable) : Prop :=
  ∀ k : TableKey, k.IsPlain → ∀ e ∈ t.toList, ∀ e' ∈ t.toList, k.agrees e.1 → k.agrees e'.1 →
    e.2 = e'.2

theorem functional_empty : ({} : SymbolTable).Functional := by
  intro k _ e he
  simp at he

theorem isSome_get? (hk : k.IsPlain) (he : e ∈ t.toList) (h : k.agrees e.1) :
    (t.get? k).isSome := by
  rw [get?, ← TableKey.hash_eq_of_agrees hk h]
  exact isSome_find? he h

theorem Functional.get?_eq_some (ht : t.Functional) (hk : k.IsPlain) :
    t.get? k = some n ↔ ∃ e, (e, n) ∈ t.toList ∧ k.agrees e := by
  refine ⟨exists_of_find?, fun ⟨e, he, hagrees⟩ => ?_⟩
  obtain ⟨m, hm⟩ := Option.isSome_iff_exists.1 (isSome_get? hk he hagrees)
  obtain ⟨e', he', hagrees'⟩ := exists_of_find? hm
  rw [hm]
  exact congrArg some (ht k hk _ he' _ he hagrees' hagrees)

theorem not_agrees_of_get? (hnew : k.IsPlain → t.get? k = none) {k' : TableKey} (hk' : k'.IsPlain)
    (h : k'.agrees k) (he : e ∈ t.toList) : ¬k'.agrees e.1 := by
  intro h'
  have hk : k.IsPlain := by
    rwa [TableKey.IsPlain, ← TableKey.kind_eq_of_agrees h]
  have hsome := isSome_get? hk he (TableKey.agrees_of_agrees h h')
  rw [hnew hk] at hsome
  cases hsome

theorem Functional.put (ht : t.Functional) (hnew : k.IsPlain → t.get? k = none) :
    (t.put k n load).Functional := by
  intro k' hk' e he e' he' h h'
  rcases mem_put.1 he with rfl | he <;> rcases mem_put.1 he' with rfl | he'
  · rfl
  · exact (not_agrees_of_get? hnew hk' h he' h').elim
  · exact (not_agrees_of_get? hnew hk' h' he h).elim
  · exact ht k' hk' e he e' he' h h'

/-- A table that a new key is entered into is the map with the key, whatever the buckets are. -/
theorem Functional.get?_put (ht : t.Functional) (hnew : k.IsPlain → t.get? k = none) {k' : TableKey}
    (hk' : k'.IsPlain) : (t.put k n load).get? k' = if k'.agrees k then some n else t.get? k' := by
  refine Option.ext fun m => ?_
  rw [(ht.put hnew).get?_eq_some hk']
  simp only [mem_put, Prod.mk.injEq]
  split
  next h =>
    constructor
    · rintro ⟨e, ⟨rfl, rfl⟩ | he, hagrees⟩
      · rfl
      · exact (not_agrees_of_get? hnew hk' h he hagrees).elim
    · rintro ⟨⟩
      exact ⟨k, .inl ⟨rfl, rfl⟩, h⟩
  next h =>
    rw [ht.get?_eq_some hk']
    refine exists_congr fun e => and_congr_left fun hagrees => or_iff_right ?_
    rintro ⟨rfl, -⟩
    exact h hagrees

/-- What is found stays found, whether or not a key has entries with different numbers. -/
theorem isSome_get?_put {k' : TableKey} (hk' : k'.IsPlain) :
    ((t.put k n load).get? k').isSome ↔ k'.agrees k ∨ (t.get? k').isSome := by
  constructor
  · intro h
    obtain ⟨m, hm⟩ := Option.isSome_iff_exists.1 h
    obtain ⟨e, he, hagrees⟩ := exists_of_find? hm
    rcases mem_put.1 he with heq | he
    · cases heq
      exact .inl hagrees
    · exact .inr (isSome_get? hk' he hagrees)
  · rintro (h | h)
    · exact isSome_get? hk' (mem_put.2 (.inl rfl)) h
    · obtain ⟨m, hm⟩ := Option.isSome_iff_exists.1 h
      obtain ⟨e, he, hagrees⟩ := exists_of_find? hm
      exact isSome_get? hk' (mem_put.2 (.inr he)) hagrees

end SymbolTable

namespace Constant

variable {c d : Constant}

theorem key_isPlain (c : Constant) : c.key.IsPlain := by
  cases c with
  | methodHandle => exact TableKey.handle_ne (.inr (by decide))
  | _ => simp [key, TableKey.IsPlain, TableKey.bootstrap]

@[simp] theorem isPlain_ofBootstrap {bytes : List UInt8} {n : Nat} :
    ¬(TableKey.ofBootstrap bytes n).IsPlain := fun h => h rfl

/-- No field that tells constants apart is left out of their keys. -/
theorem agrees_key : c.key.agrees d.key ↔ c = d := by
  have hne {kind n : Nat} (h : n < 20 ∨ 30 ≤ n ∧ n ≤ 33) : n ≠ TableKey.handle kind :=
    (TableKey.handle_ne h).symm
  have hle (kind : Nat) : ¬TableKey.handle kind < 20 :=
    Nat.not_lt.2 (TableKey.handleBase_le_handle kind)
  cases c <;> cases d <;>
    simp [key, TableKey.agrees, TableKey.hasText, TableKey.handle_ne, TableKey.handle_inj, hne, hle,
      TableKey.handleBase, TableKey.named, TableKey.fresh, TableKey.merged, TableKey.bootstrap,
      Int32.toInt_inj, Bool.toInt, and_assoc]
  case float.float => exact ⟨fun h => by simpa using congrArg Int32.toUInt32 h, congrArg _⟩
  case double.double => exact ⟨fun h => by simpa using congrArg Int64.toUInt64 h, congrArg _⟩
  case methodHandle.methodHandle ofInterface _ _ _ _ ofInterface' =>
    cases ofInterface <;> cases ofInterface' <;> simp
  case invokeDynamic.invokeDynamic => tauto

end Constant

end ClassAssembler
