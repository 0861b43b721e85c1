import ClassAssembler.Constant
import ClassAssembler.Text.Utf16

/-!
# Symbol tables

A symbol table keeps a number for every key.  The keys lie in buckets by their hashes, and a new one
comes to the front of its bucket.  In a crowded table all keys move to twice as many buckets and one.
Which fields of a key are hashed and compared depends on its kind.
-/

namespace ClassAssembler

/-- The hash of a sequence, in which the last ones count least. -/
def hashOf (ns : List Nat) : Nat := ns.foldl (fun h n => (31 * h + n) % 0x100000000) 0

def Text.hash (t : Text) : Nat := hashOf (t.units.map UInt16.toNat)

/-- What is looked up in a table.  The kind of a constant is its tag, that of a handle lies above them. -/
structure TableKey where
  kind : Nat
  number : Int := 0
  long : Int64 := 0
  first : Text := []
  second : Text := []
  third : Text := []
deriving DecidableEq, Inhabited

namespace TableKey

def handleBase : Nat := 20
def named : Nat := 30
def fresh : Nat := 31
def merged : Nat := 32
def bootstrap : Nat := 33

/-- The kind of a handle's key.  A handle of a kind that does not exist stays clear of the kinds above. -/
def handle (kind : Nat) : Nat := if kind ≤ 9 then handleBase + kind else bootstrap + kind

def hasText (kind : Nat) : Bool := kind ∈ [1, 7, 8, 16, named]

/-- The hash of a key.  That of a bootstrap method is the one of its bytes, which the key brings along. -/
def hash (k : TableKey) : Nat :=
  let n := (k.number % 0x100000000).toNat
  let long := k.long.toUInt64.toNat
  let rest :=
    if hasText k.kind then k.first.hash
    else if k.kind = 3 ∨ k.kind = 4 then n
    else if k.kind = 5 ∨ k.kind = 6 then long % 0x100000000
    else if k.kind = 12 then k.first.hash * k.second.hash
    else if k.kind = 18 then n * k.first.hash * k.second.hash
    else if k.kind = fresh then k.first.hash + n
    else if k.kind = merged then long % 0x100000000 + long / 0x100000000
    else if k.kind = bootstrap then long
    else k.first.hash * k.second.hash * k.third.hash
  (k.kind + rest) % 0x80000000

def agrees (k e : TableKey) : Bool :=
  k.kind == e.kind &&
    if hasText k.kind then k.first == e.first
    else if k.kind = 3 ∨ k.kind = 4 then k.number == e.number
    else if k.kind = 5 ∨ k.kind = 6 then k.long == e.long
    else if k.kind = 12 then k.first == e.first && k.second == e.second
    else if k.kind = 18 then k.number == e.number && k.first == e.first && k.second == e.second
    else if k.kind = fresh then k.number == e.number && k.first == e.first
    else if k.kind = merged then k.long == e.long
    else
      (k.kind < handleBase || k.number == e.number) && k.first == e.first
        && k.second == e.second && k.third == e.third

/-- The key of a bootstrap method with the position of its bytes. -/
def ofBootstrap (bytes : List UInt8) (position : Nat) : TableKey :=
  { kind := bootstrap, number := position, long := .ofNat (hashOf (bytes.map UInt8.toNat)) }

end TableKey

/-- Buckets of keys with their numbers, each key in the bucket of its hash. -/
structure SymbolTable where
  buckets : Array (List (TableKey × Nat))
  nonempty : 0 < buckets.size
  placed : ∀ i b, buckets[i]? = some b → ∀ e ∈ b, e.1.hash % buckets.size = i

namespace SymbolTable

def ofSize (n : Nat) : SymbolTable where
  buckets := Array.replicate (n + 1) []
  nonempty := by simp
  placed i b hb e he := by
    simp only [Array.getElem?_replicate, Option.ite_none_right_eq_some, Option.some.injEq] at hb
    simp [← hb.2] at he

instance : EmptyCollection SymbolTable := ⟨ofSize 255⟩

instance : Inhabited SymbolTable := ⟨{}⟩

def push (t : SymbolTable) (k : TableKey) (n : Nat) : SymbolTable where
  buckets := t.buckets.modify (k.hash % t.buckets.size) ((k, n) :: ·)
  nonempty := by simpa using t.nonempty
  placed i b hb e he := by
    rw [Array.size_modify]
    rw [Array.getElem?_modify] at hb
    split at hb
    next hi =>
      obtain ⟨old, hold, rfl⟩ := Option.map_eq_some_iff.1 hb
      rcases List.mem_cons.1 he with rfl | he
      · exact hi
      · exact t.placed i old hold e he
    next => exact t.placed i b hb e he

def rehash (t : SymbolTable) : SymbolTable :=
  t.buckets.foldl (fun t b => b.foldl (fun t e => t.push e.1 e.2) t) (ofSize (2 * t.buckets.size))

/-- Enters a new key.  The load is the number of entries that count against the number of buckets. -/
def put (t : SymbolTable) (k : TableKey) (n load : Nat) : SymbolTable :=
  (if t.buckets.size * 3 / 4 < load then t.rehash else t).push k n

def bucket (t : SymbolTable) (hash : Nat) : List (TableKey × Nat) :=
  (t.buckets[hash % t.buckets.size]?).getD []

def find? (t : SymbolTable) (hash : Nat) (p : TableKey → Bool) : Option Nat :=
  ((t.bucket hash).find? fun e => p e.1).map Prod.snd

def get? (t : SymbolTable) (k : TableKey) : Option Nat := t.find? k.hash k.agrees

end SymbolTable

namespace Constant

def key : Constant → TableKey
  | utf8 t => { kind := 1, first := t }
  | integer v => { kind := 3, number := v.toInt }
  | float bits => { kind := 4, number := bits.toInt32.toInt }
  | long v => { kind := 5, long := v }
  | double bits => { kind := 6, long := bits.toInt64 }
  | classRef name => { kind := 7, first := name }
  | string t => { kind := 8, first := t }
  | fieldRef owner name desc => { kind := 9, first := owner, second := name, third := desc }
  | methodRef owner name desc => { kind := 10, first := owner, second := name, third := desc }
  | interfaceMethodRef owner name desc => { kind := 11, first := owner, second := name, third := desc }
  | nameAndType name desc => { kind := 12, first := name, second := desc }
  | methodHandle kind owner name desc ofInterface =>
    { kind := TableKey.handle kind, number := ofInterface.toInt, first := owner
      second := name, third := desc }
  | methodType desc => { kind := 16, first := desc }
  | invokeDynamic name desc n => { kind := 18, number := n, first := name, second := desc }

end Constant

end ClassAssembler
