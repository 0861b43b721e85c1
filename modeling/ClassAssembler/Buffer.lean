import ClassAssembler.Text.Utf16

/-!
# Byte buffers

A buffer collects big-endian bytes.  Numbers are cut to the width of their field.  `room` is the
space set aside so far: it at least doubles whenever it runs out.
-/

namespace ClassAssembler

/-- The bytes written so far, the space set aside for them, and the encoded length of the first
text that did not fit its two-byte length field. -/
structure Buffer where
  bytes : Array UInt8 := #[]
  room : Nat := 64
  tooLong : Option Nat := none
deriving Inhabited, Repr

namespace Buffer

def textLimit : Nat := 65535

def withRoom (n : Int) : Buffer := { room := max 1 n.toNat }

@[inline] def size (b : Buffer) : Nat := b.bytes.size

def toList (b : Buffer) : List UInt8 := b.bytes.toList

@[inline] def low8 (v : Int) : UInt8 := UInt8.ofInt v

@[inline] def reserve (b : Buffer) (n : Nat) : Buffer :=
  if b.bytes.size + n ≤ b.room then b
  else { b with room := max (2 * b.room) (b.bytes.size + n) }

def putList (b : Buffer) (xs : List UInt8) : Buffer :=
  let b := b.reserve xs.length
  { b with bytes := xs.foldl Array.push b.bytes }

def putByte (b : Buffer) (v : Int) : Buffer :=
  let b := b.reserve 1
  { b with bytes := b.bytes.push (low8 v) }

def putPair (b : Buffer) (v w : Int) : Buffer :=
  let b := b.reserve 2
  { b with bytes := (b.bytes.push (low8 v)).push (low8 w) }

def putShort (b : Buffer) (v : Int) : Buffer :=
  let b := b.reserve 2
  { b with bytes := (b.bytes.push (low8 (v / 256))).push (low8 v) }

def putTagged (b : Buffer) (tag v : Int) : Buffer :=
  let b := b.reserve 3
  { b with bytes := ((b.bytes.push (low8 tag)).push (low8 (v / 256))).push (low8 v) }

def bytes32 (v : Int) : List UInt8 :=
  [low8 (v / 0x1000000), low8 (v / 0x10000), low8 (v / 0x100), low8 v]

def bytes64 (v : Int) : List UInt8 := bytes32 (v / 0x100000000) ++ bytes32 v

def putInt (b : Buffer) (v : Int) : Buffer := b.putList (bytes32 v)

def putLong (b : Buffer) (v : Int) : Buffer := b.putList (bytes64 v)

def append (b o : Buffer) : Buffer :=
  let b := b.reserve o.bytes.size
  { b with bytes := b.bytes ++ o.bytes }

def putFirst (b : Buffer) (xs : List UInt8) (n : Int) : Checked Buffer :=
  if 0 ≤ n ∧ n ≤ xs.length then .ok (b.putList (xs.take n.toNat)) else .error .outOfRange

def putZeros (b : Buffer) (n : Int) : Checked Buffer :=
  if 0 ≤ n then .ok (b.putList (List.replicate n.toNat 0))
  else if 0 ≤ b.bytes.size + n then
    .ok { b with bytes := b.bytes.take (b.bytes.size + n).toNat }
  else .error .negativeLength

def refuse (b : Buffer) (n : Nat) : Buffer :=
  match b.tooLong with
  | some _ => b
  | none => { b with tooLong := some n }

def setShort (b : Buffer) (i : Nat) (v : Int) : Buffer :=
  { b with bytes := (b.bytes.setIfInBounds i (low8 (v / 256))).setIfInBounds (i + 1) (low8 v) }

/-- Appends the units of a text that are plain, up to the first that is not.  Space was set aside for all
of them. -/
def putPlain (b : Buffer) : List UInt16 → Buffer × List UInt16
  | [] => (b, [])
  | u :: us =>
    if Text.isPlain u then putPlain { b with bytes := b.bytes.push u.toUInt8 } us else (b, u :: us)

/-- Appends what is left of a text that stands in the buffer from `start` on, and corrects its length.
A text that turns out to be too long is taken back. -/
def putRest (b : Buffer) (start : Nat) (rest : List UInt16) : Buffer :=
  let n := Text.addUnitLengths (b.bytes.size - (start + 2)) rest
  if n > textLimit then refuse { b with bytes := b.bytes.take start } n
  else (b.setShort start n).putList (Text.encodeUnits rest)

/-- Appends the encoding of a text behind its length in two bytes.  A text is taken to be plain until a
unit shows that it is not.  One that is too long leaves the bytes as they are. -/
def putText (b : Buffer) (t : Text) : Buffer :=
  let units := t.units
  if units.length > textLimit then b.refuse units.length
  else
    let start := b.bytes.size
    let b := (b.reserve (2 + units.length)).putShort units.length
    match b.putPlain units with
    | (b, []) => b
    | (b, rest) => b.putRest start rest

/-- Overwrites one byte inside the space set aside.  Behind the bytes written so far the value is
lost, because the next byte written there replaces it. -/
def patch (b : Buffer) (i : Nat) (v : UInt8) : Checked Buffer :=
  if i < b.bytes.size then .ok { b with bytes := b.bytes.setIfInBounds i v }
  else if i < b.room then .ok b
  else .error .outOfRange

def peek (b : Buffer) (i : Nat) : Checked UInt8 :=
  match b.bytes[i]? with
  | some v => .ok v
  | none => if i < b.room then .ok 0 else .error .outOfRange

@[simp] theorem toList_empty : toList {} = [] := rfl

theorem bytes_reserve (b : Buffer) (n : Nat) : (b.reserve n).bytes = b.bytes := by
  unfold reserve
  split <;> rfl

theorem foldl_push_toList (xs : List UInt8) (a : Array UInt8) :
    (xs.foldl Array.push a).toList = a.toList ++ xs := by
  induction xs generalizing a with
  | nil => simp
  | cons x xs ih => simp

@[simp] theorem toList_putList (b : Buffer) (xs : List UInt8) :
    (b.putList xs).toList = b.toList ++ xs := by
  simp only [putList, toList, foldl_push_toList, bytes_reserve]

@[simp] theorem toList_putByte (b : Buffer) (v : Int) :
    (b.putByte v).toList = b.toList ++ [low8 v] := by
  simp [putByte, toList, bytes_reserve]

@[simp] theorem toList_putPair (b : Buffer) (v w : Int) :
    (b.putPair v w).toList = b.toList ++ [low8 v, low8 w] := by
  simp [putPair, toList, bytes_reserve]

@[simp] theorem toList_putShort (b : Buffer) (v : Int) :
    (b.putShort v).toList = b.toList ++ [low8 (v / 256), low8 v] := by
  simp [putShort, toList, bytes_reserve]

@[simp] theorem toList_putTagged (b : Buffer) (tag v : Int) :
    (b.putTagged tag v).toList = b.toList ++ [low8 tag, low8 (v / 256), low8 v] := by
  simp [putTagged, toList, bytes_reserve]

@[simp] theorem toList_append (b o : Buffer) : (b.append o).toList = b.toList ++ o.toList := by
  simp [append, toList, bytes_reserve]

end Buffer

end ClassAssembler
