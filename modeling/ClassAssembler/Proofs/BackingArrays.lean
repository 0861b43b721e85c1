import ClassAssembler.Proofs.EncodedTexts

/-!
# Buffers in memory

In memory the bytes of a buffer are the front of an array, and behind them stands what was left
there.  `Backing` is such an array, with every index checked against its bounds.  Whatever is
written, no index leaves the array, and the bytes are those of the list to which every call appends
its own, or in which it overwrites two (`Backing.refines_list`).
-/

namespace ClassAssembler

open List Buffer

/-- An array of which the first `length` bytes are written. -/
structure Backing where
  data : Array UInt8
  length : Nat
  tooLong : Option Nat

/-- What can be asked of a buffer.  The source of `append` is the array of another buffer: its
bytes, and what stands behind them. -/
inductive BufferCall where
  | byte (v : Int)
  | pair (v w : Int)
  | short (v : Int)
  | tagged (tag v : Int)
  | int (v : Int)
  | long (v : Int)
  | text (t : Text)
  | first (source : List UInt8) (n : Int)
  | zeros (n : Int)
  | append (other : Buffer) (stale : List UInt8)
  | setShort (i : Nat) (v : Int)

/-! ## Calls on arrays -/

/-- The bytes that a text is begun with: the number of its units, and those up to the first that is
not plain. -/
def Text.begunBytes (us : List UInt16) : List UInt8 :=
  bytes16 us.length ++ (us.takeWhile isPlain).map UInt16.toUInt8

namespace Backing

def withRoom (n : Int) : Backing := ⟨Array.replicate (max 1 n.toNat) 0, 0, none⟩

def storeAll (data : Array UInt8) (i : Nat) : List UInt8 → Checked (Array UInt8)
  | [] => .ok data
  | x :: xs => do storeAll (← Checked.store data i x) (i + 1) xs

variable (m : Backing)

def bytes : Checked (List UInt8) :=
  if m.length ≤ m.data.size then .ok (m.data.toList.take m.length) else .error .outOfRange

def enlarge (n : Nat) : Checked Backing := do
  let kept ← m.bytes
  let spare := max (2 * m.data.size) (m.length + n) - kept.length
  return { m with data := (kept ++ List.replicate spare 0).toArray }

def ensure (n : Nat) : Checked Backing := if m.length + n ≤ m.data.size then .ok m else m.enlarge n

/-- Writes bytes where there is space for at least `n`. -/
def write (n : Nat) (xs : List UInt8) : Checked Backing := do
  let m ← m.ensure n
  return { m with data := ← storeAll m.data m.length xs, length := m.length + xs.length }

def putList (xs : List UInt8) : Checked Backing := m.write xs.length xs

def putFirst (source : List UInt8) (n : Int) : Checked Backing :=
  if 0 ≤ n ∧ n ≤ source.length then m.putList (source.take n.toNat) else .error .outOfRange

def setShort (i : Nat) (v : Int) : Checked Backing :=
  return { m with data := ← storeAll m.data i (bytes16 v) }

def refuse (n : Nat) : Backing := { m with tooLong := some (m.tooLong.getD n) }

def putRest (start : Nat) (rest : List UInt16) : Checked Backing := do
  let n := Text.addUnitLengths (m.length - (start + 2)) rest
  if n > textLimit then return refuse { m with length := start } n
  else (← m.setShort start n).putList (Text.encodeUnits rest)

def putText (t : Text) : Checked Backing := do
  let us := t.units
  if us.length > textLimit then return m.refuse us.length
  else
    let m' ← m.write (2 + us.length) (Text.begunBytes us)
    match us.dropWhile Text.isPlain with
    | [] => return m'
    | rest => m'.putRest m.length rest

def run : BufferCall → Checked Backing
  | .byte v => m.putList [low8 v]
  | .pair v w => m.putList [low8 v, low8 w]
  | .short v => m.putList (bytes16 v)
  | .tagged tag v => m.putList (low8 tag :: bytes16 v)
  | .int v => m.putList (bytes32 v)
  | .long v => m.putList (bytes64 v)
  | .text t => m.putText t
  | .first source n => m.putFirst source n
  | .zeros n => m.putFirst (List.replicate n.toNat 0) n
  | .append other stale => m.putFirst (other.toList ++ stale) other.size
  | .setShort i v => m.setShort i v

def runAll (cs : List BufferCall) : Checked Backing := cs.foldlM run m

end Backing

namespace Buffer

variable (b : Buffer)

def run : BufferCall → Checked Buffer
  | .byte v => .ok (b.putByte v)
  | .pair v w => .ok (b.putPair v w)
  | .short v => .ok (b.putShort v)
  | .tagged tag v => .ok (b.putTagged tag v)
  | .int v => .ok (b.putInt v)
  | .long v => .ok (b.putLong v)
  | .text t => .ok (b.putText t)
  | .first source n => b.putFirst source n
  | .zeros n => b.putZeros n
  | .append other _ => .ok (b.append other)
  | .setShort i v => .ok (b.setShort i v)

def runAll (cs : List BufferCall) : Checked Buffer := cs.foldlM run b

theorem append_eq_putList (o : Buffer) : b.append o = b.putList o.toList := by
  have hbytes : b.bytes ++ o.bytes = o.toList.foldl Array.push b.bytes := by
    rw [← Array.toList_inj, foldl_push_toList, Array.toList_append]
    rfl
  simp only [append, putList, bytes_reserve, hbytes]
  rfl

theorem reserve_reserve {n k : Nat} (h : k ≤ n) : (b.reserve n).reserve k = b.reserve n := by
  refine if_pos ?_
  rw [bytes_reserve]
  exact Nat.le_trans (Nat.add_le_add_left h _) (b.size_le_room_reserve n)

theorem room_putList (xs : List UInt8) : (b.putList xs).room = (b.reserve xs.length).room := rfl

theorem toList_reserve (n : Nat) :
    (b.reserve n).toList = b.toList := congrArg Array.toList (b.bytes_reserve n)

theorem putPlain_eq_takeWhile (us : List UInt16) : b.putPlain us =
    ({ b with bytes := ((us.takeWhile Text.isPlain).map UInt16.toUInt8).foldl Array.push b.bytes },
      us.dropWhile Text.isPlain) := by
  induction us generalizing b with
  | nil => rfl
  | cons u us ih =>
    rw [putPlain]
    split
    next hplain =>
      rw [ih, takeWhile_cons_of_pos hplain, dropWhile_cons_of_pos hplain]
      rfl
    next hplain =>
      rw [takeWhile_cons_of_neg hplain, dropWhile_cons_of_neg hplain]
      rfl

theorem length_begunBytes_le (us : List UInt16) : (Text.begunBytes us).length ≤ 2 + us.length := by
  rw [Text.begunBytes, length_append, length_map]
  exact Nat.add_le_add_left (takeWhile_sublist _).length_le 2

theorem putPlain_begun (us : List UInt16) : ∃ c,
    ((b.reserve (2 + us.length)).putShort us.length).putPlain us = (c, us.dropWhile Text.isPlain) ∧
      c.toList = b.toList ++ Text.begunBytes us ∧ c.room = (b.reserve (2 + us.length)).room ∧
      c.tooLong = b.tooLong := by
  refine ⟨_, putPlain_eq_takeWhile _ us, ?_, ?_, ?_⟩
  · rw [toList, foldl_push_toList, ← toList, toList_putShort, toList_reserve, append_assoc]
    rfl
  · have hspare := congrArg room (b.reserve_reserve (Nat.le_add_right 2 us.length))
    exact hspare
  · exact (tooLong_putShort _ us.length).trans (b.tooLong_reserve _)

end Buffer

/-! ## Calls on lists -/

/-- The low bytes of a number in two's complement, the highest first. -/
def bigEndian : Nat → Int → List UInt8
  | 0, _ => []
  | width + 1, v => bigEndian width (v / 256) ++ [UInt8.ofInt v]

theorem bigEndian_four (v : Int) : bigEndian 4 v = bytes32 v := by
  simp [bigEndian, bytes32, low8, Int.ediv_ediv]

theorem bigEndian_eight (v : Int) : bigEndian 8 v = bytes64 v := by
  simp [bigEndian, bytes64, bytes32, low8, Int.ediv_ediv]

namespace BufferCall

def result (xs : List UInt8) : BufferCall → List UInt8
  | byte v => xs ++ bigEndian 1 v
  | pair v w => xs ++ (bigEndian 1 v ++ bigEndian 1 w)
  | short v => xs ++ bigEndian 2 v
  | tagged tag v => xs ++ (bigEndian 1 tag ++ bigEndian 2 v)
  | int v => xs ++ bigEndian 4 v
  | long v => xs ++ bigEndian 8 v
  | text t =>
    if t.modifiedUtf8.length ≤ 65535 then
      xs ++ (bigEndian 2 t.modifiedUtf8.length ++ t.modifiedUtf8) else xs
  | first source n => xs ++ source.take n.toNat
  | zeros n => xs ++ List.replicate n.toNat 0
  | append other _ => xs ++ other.toList
  | setShort i v => xs.take i ++ (bigEndian 2 v ++ xs.drop (i + 2))

/-- Whether a call may be made on so many bytes. -/
def Allowed (written : Nat) : BufferCall → Prop
  | first source n => 0 ≤ n ∧ n ≤ source.length
  | zeros n => 0 ≤ n
  | setShort i _ => i + 2 ≤ written
  | _ => True

def AllAllowed (xs : List UInt8) : List BufferCall → Prop
  | [] => True
  | c :: cs => c.Allowed xs.length ∧ AllAllowed (c.result xs) cs

end BufferCall

/-! ## One call -/

namespace Backing

/-- The bytes of a buffer are the front of an array that is as large as the buffer has room. -/
structure Shows (m : Backing) (b : Buffer) : Prop where
  data : ∃ stale, m.data.toList = b.toList ++ stale
  length : m.length = b.toList.length
  room : m.data.size = b.room
  tooLong : m.tooLong = b.tooLong

variable {m : Backing} {b : Buffer}

theorem storeAll_eq {data : Array UInt8} {before old after xs : List UInt8}
    (h : data.toList = before ++ (old ++ after)) (hlength : old.length = xs.length) :
    ∃ data', storeAll data before.length xs = .ok data' ∧
      data'.toList = before ++ (xs ++ after) ∧ data'.size = data.size := by
  induction xs generalizing data before old with
  | nil =>
    obtain rfl := eq_nil_of_length_eq_zero hlength
    exact ⟨data, rfl, h, rfl⟩
  | cons x xs ih =>
    obtain ⟨y, old, rfl⟩ := exists_cons_of_length_eq_add_one hlength
    have hlt : before.length < data.size := by
      rw [← Array.length_toList, h]
      simp
    have hstore : Checked.store data before.length x = .ok (data.setIfInBounds before.length x) :=
      if_pos ⟨Int.natCast_nonneg _, hlt⟩
    have hset : (data.setIfInBounds before.length x).toList = (before ++ [x]) ++
        (old ++ after) := by
      rw [Array.toList_setIfInBounds, h]
      simp
    obtain ⟨data', hstores, hdata, hsize⟩ := ih hset (Nat.succ.inj hlength)
    rw [length_append, length_singleton] at hstores
    refine ⟨data', ?_, ?_, hsize.trans Array.size_setIfInBounds⟩
    · rw [storeAll, hstore]
      exact hstores
    · rw [hdata, append_assoc]
      rfl

namespace Shows

theorem congr {c : Buffer} (h : m.Shows b) (hlist : c.toList = b.toList) (hroom : c.room = b.room)
    (hlong : c.tooLong = b.tooLong) : m.Shows c :=
  ⟨hlist ▸ h.data, hlist ▸ h.length, hroom ▸ h.room, hlong ▸ h.tooLong⟩

theorem bytes_eq (h : m.Shows b) : m.bytes = .ok b.toList := by
  obtain ⟨stale, hdata⟩ := h.data
  have hle : m.length ≤ m.data.size := by
    rw [h.length, ← Array.length_toList, hdata]
    simp
  rw [bytes, if_pos hle, hdata, h.length, take_left]

theorem ensure (h : m.Shows b) (n : Nat) : ∃ m', m.ensure n = .ok m' ∧ m'.Shows (b.reserve n) := by
  rw [Backing.ensure, h.length, h.room]
  split
  next hle =>
    have hsame : b.reserve n = b := if_pos hle
    rw [hsame]
    exact ⟨m, rfl, h⟩
  next hlt =>
    have hroom : (b.reserve n).room = max (2 * b.room) (b.toList.length + n) :=
      congrArg Buffer.room (if_neg hlt)
    rw [enlarge, h.bytes_eq, h.length, h.room, ← hroom]
    refine ⟨_, rfl, ⟨List.replicate ((b.reserve n).room - b.toList.length) 0, ?_⟩, ?_, ?_, ?_⟩
    · rw [b.toList_reserve]
    · rw [b.toList_reserve]
    · have hle : b.toList.length ≤ (b.reserve n).room := by omega
      simp [Nat.add_sub_cancel' hle]
    · exact h.tooLong.trans (b.tooLong_reserve n).symm

theorem write (h : m.Shows b) {n : Nat} {xs : List UInt8} (hn : xs.length ≤ n) :
    ∃ m', m.write n xs = .ok m' ∧ m'.Shows ((b.reserve n).putList xs) := by
  obtain ⟨m₁, hensure, hm₁⟩ := h.ensure n
  obtain ⟨stale, hdata⟩ := hm₁.data
  have hroom : xs.length ≤ stale.length := by
    have hsize : m₁.data.size = (b.reserve n).toList.length + stale.length := by
      rw [← Array.length_toList, hdata, length_append]
    have hfree := b.size_le_room_reserve n
    rw [← hm₁.room, hsize, b.toList_reserve, size_eq_length] at hfree
    omega
  rw [← take_append_drop xs.length stale] at hdata
  obtain ⟨data, hstores, hdata', hsize⟩ := storeAll_eq hdata (length_take_of_le hroom)
  rw [← hm₁.length] at hstores
  refine ⟨{ m₁ with data, length := m₁.length + xs.length }, ?_, ⟨stale.drop xs.length, ?_⟩, ?_, ?_,
    ?_⟩
  · rw [Backing.write, hensure]
    simp only [bind, Except.bind, hstores]
    rfl
  · rw [hdata', toList_putList, append_assoc]
  · rw [toList_putList, length_append, hm₁.length]
  · rw [room_putList, b.reserve_reserve hn]
    exact hsize.trans hm₁.room
  · exact hm₁.tooLong.trans (tooLong_putList _ _).symm

theorem putList (h : m.Shows b) (xs : List UInt8) :
    ∃ m', m.putList xs = .ok m' ∧ m'.Shows (b.putList xs) := by
  obtain ⟨m', hput, hm'⟩ := h.write (Nat.le_refl xs.length)
  refine ⟨m', hput, hm'.congr ?_ ?_ ?_⟩
  · rw [toList_putList, toList_putList, b.toList_reserve]
  · rw [room_putList, room_putList, b.reserve_reserve (Nat.le_refl _)]
  · rw [tooLong_putList, tooLong_putList, b.tooLong_reserve]

theorem setShort (h : m.Shows b) {before after : List UInt8} {x y : UInt8}
    (hb : b.toList = before ++ x :: y :: after) (v : Int) :
    ∃ m', m.setShort before.length v = .ok m' ∧ m'.Shows (b.setShort before.length v) := by
  obtain ⟨stale, hdata⟩ := h.data
  have hsplit : m.data.toList = before ++ ([x, y] ++ (after ++ stale)) := by
    rw [hdata, hb]
    simp
  have hlength : [x, y].length = (bytes16 v).length := rfl
  obtain ⟨data, hstores, hdata', hsize⟩ := storeAll_eq hsplit hlength
  have hlist := toList_setShort hb v
  refine ⟨{ m with data }, ?_, ⟨stale, ?_⟩, ?_, hsize.trans h.room, h.tooLong⟩
  · rw [Backing.setShort, hstores]
    rfl
  · rw [hdata', hlist]
    simp
  · rw [hlist, h.length, hb]
    simp [bytes16]

theorem refuse (h : m.Shows b) (n : Nat) : (m.refuse n).Shows (b.refuse n) := by
  have hroom : (b.refuse n).room = b.room := by
    unfold Buffer.refuse
    split <;> rfl
  have hm : (m.refuse n).Shows { b with tooLong := some (b.tooLong.getD n) } :=
    ⟨h.data, h.length, h.room, by rw [← h.tooLong]; rfl⟩
  exact hm.congr (b.toList_refuse n) hroom (b.tooLong_refuse n)

theorem putRest (h : m.Shows b) {before after : List UInt8} {x y : UInt8}
    (hb : b.toList = before ++ x :: y :: after) (rest : List UInt16) :
    ∃ m', m.putRest before.length rest = .ok m' ∧ m'.Shows (b.putRest before.length rest) := by
  have hlength : m.length = b.bytes.size := h.length
  rw [Backing.putRest, Buffer.putRest, hlength]
  split
  next =>
    -- the text is taken back, and its bytes stay behind those that count
    obtain ⟨stale, hdata⟩ := h.data
    have htake : ({ b with bytes := b.bytes.take before.length } : Buffer).toList = before := by
      have hlist : (b.bytes.take before.length).toList =
        b.toList.take before.length := by simp [toList]
      rw [toList, hlist, hb, take_left]
    have hback : Shows { m with length := before.length }
        { b with bytes := b.bytes.take before.length } := by
      refine ⟨⟨x :: y :: after ++ stale, ?_⟩, ?_, h.room, h.tooLong⟩
      · rw [htake, hdata, hb, append_assoc]
      · rw [htake]
    exact ⟨_, rfl, hback.refuse _⟩
  next =>
    obtain ⟨m₁, hset, hm₁⟩ := h.setShort hb _
    rw [hset]
    exact hm₁.putList _

theorem putText (h : m.Shows b) (t : Text) :
    ∃ m', m.putText t = .ok m' ∧ m'.Shows (b.putText t) := by
  unfold Backing.putText Buffer.putText
  dsimp only
  split
  next => exact ⟨_, rfl, h.refuse _⟩
  next =>
    obtain ⟨m₁, hwrite, hm₁⟩ := h.write (length_begunBytes_le t.units)
    obtain ⟨c, hput, hlist, hroom, hlong⟩ := b.putPlain_begun t.units
    have hc : m₁.Shows c := by
      refine hm₁.congr ?_ ?_ ?_
      · rw [hlist, toList_putList, b.toList_reserve]
      · rw [hroom, room_putList, b.reserve_reserve (length_begunBytes_le _)]
      · rw [hlong, tooLong_putList, b.tooLong_reserve]
    rw [hwrite, hput, h.length]
    cases t.units.dropWhile Text.isPlain with
    | nil => exact ⟨m₁, rfl, hc⟩
    | cons u us => exact hc.putRest hlist (u :: us)

/-- A call that is allowed succeeds on the array and on the buffer, and both hold its result. -/
theorem run (h : m.Shows b) {c : BufferCall} (hc : c.Allowed b.toList.length) :
    ∃ m' b', m.run c = .ok m' ∧ b.run c = .ok b' ∧ m'.Shows b' ∧ b'.toList = c.result b.toList := by
  have happend (xs : List UInt8) : ∃ m' b', m.putList xs = .ok m' ∧
    (.ok (b.putList xs) : Checked Buffer) = .ok b' ∧
      m'.Shows b' ∧ b'.toList = b.toList ++ xs := by
    obtain ⟨m', hput, hm'⟩ := h.putList xs
    exact ⟨m', _, hput, rfl, hm', Buffer.toList_putList b xs⟩
  cases c with
  | byte v => exact happend _
  | pair v w => exact happend _
  | short v => exact happend _
  | tagged tag v => exact happend _
  | int v =>
    rw [BufferCall.result, bigEndian_four]
    exact happend _
  | long v =>
    rw [BufferCall.result, bigEndian_eight]
    exact happend _
  | text t =>
    obtain ⟨m', hput, hm'⟩ := h.putText t
    refine ⟨m', _, hput, rfl, hm', ?_⟩
    rw [Buffer.toList_putText, Buffer.textBytes, BufferCall.result]
    split
    next hle => exact (if_pos hle).symm
    next hlt => exact (append_nil _).trans (if_neg hlt).symm
  | first source n =>
    have hn : 0 ≤ n ∧ n ≤ source.length := hc
    simp only [Backing.run, Backing.putFirst, Buffer.run, Buffer.putFirst, if_pos hn]
    exact happend _
  | zeros n =>
    have hn : 0 ≤ n := hc
    have hlength : 0 ≤ n ∧ n ≤ (List.replicate n.toNat (0 : UInt8)).length := by
      rw [length_replicate]
      omega
    have htake : (List.replicate n.toNat (0 : UInt8)).take n.toNat =
      List.replicate n.toNat 0 := by simp
    simp only [Backing.run, Backing.putFirst, Buffer.run, Buffer.putZeros, if_pos hn,
      if_pos hlength, htake]
    exact happend _
  | append other stale =>
    -- what stands behind the bytes of the other buffer is not taken
    have hsize : (0 : Int) ≤ other.size ∧ (other.size : Int) ≤ (other.toList ++ stale).length := by
      rw [length_append, ← Buffer.size_eq_length]
      omega
    have htake : (other.toList ++ stale).take (other.size : Int).toNat = other.toList := by
      rw [Int.toNat_natCast, Buffer.size_eq_length, take_left]
    simp only [Backing.run, Backing.putFirst, Buffer.run, if_pos hsize, htake,
      Buffer.append_eq_putList]
    exact happend _
  | setShort i v =>
    have hi : i + 2 ≤ b.toList.length := hc
    have hlength : (b.toList.drop i).length = b.toList.length - i - 2 + 1 + 1 := by
      rw [length_drop]
      omega
    obtain ⟨x, more, hmore⟩ := exists_cons_of_length_eq_add_one hlength
    obtain ⟨y, after, rfl⟩ := exists_cons_of_length_eq_add_one (Nat.succ.inj (hmore ▸ hlength))
    have hbefore : (b.toList.take i).length = i := length_take_of_le (by omega)
    have hafter : b.toList.drop (i + 2) = after := by rw [← drop_drop, hmore]; rfl
    have hsplit : b.toList = b.toList.take i ++ x :: y :: after := by rw [← hmore, take_append_drop]
    obtain ⟨m', hset, hm'⟩ := h.setShort hsplit v
    have hlist := Buffer.toList_setShort hsplit v
    rw [hbefore] at hset hm' hlist
    refine ⟨m', _, hset, rfl, hm', hlist.trans ?_⟩
    rw [BufferCall.result, hafter]
    rfl

theorem runAll (h : m.Shows b) {cs : List BufferCall} (hcs : BufferCall.AllAllowed b.toList cs) :
    ∃ m' b', m.runAll cs = .ok m' ∧ b.runAll cs = .ok b' ∧ m'.Shows b' ∧
      b'.toList = cs.foldl BufferCall.result b.toList := by
  induction cs generalizing m b with
  | nil => exact ⟨m, b, rfl, rfl, h, rfl⟩
  | cons c cs ih =>
    obtain ⟨hc, hcs⟩ := hcs
    obtain ⟨m₁, b₁, hrun, hrun', hm₁, hlist⟩ := h.run hc
    obtain ⟨m', b', hruns, hruns', hm', hlists⟩ := ih hm₁ (hlist ▸ hcs)
    refine ⟨m', b', ?_, ?_, hm', ?_⟩
    · rw [Backing.runAll, foldlM_cons, hrun]
      exact hruns
    · rw [Buffer.runAll, foldlM_cons, hrun']
      exact hruns'
    · rw [hlists, hlist]
      rfl

end Shows

/-- Whatever the size of the array and whatever stands behind the bytes that count, every sequence
of allowed calls runs without leaving the array.  Then as many bytes count as the list has to which
every call adds its own or in which it overwrites two, and they are those of the list.  The buffer
gives the same bytes, and its room is the size of the array.  A new array of any size shows an empty
buffer. -/
theorem refines_list (hm : m.Shows b) {calls : List BufferCall}
    (hcalls : BufferCall.AllAllowed b.toList calls) :
    (∃ m' b', m.runAll calls = .ok m' ∧ b.runAll calls = .ok b' ∧ m'.Shows b' ∧
      m'.length = (calls.foldl BufferCall.result b.toList).length ∧
      m'.bytes = .ok (calls.foldl BufferCall.result b.toList) ∧
      b'.toList = calls.foldl BufferCall.result b.toList) ∧
    ∀ n, (withRoom n).Shows (Buffer.withRoom n) ∧ (Buffer.withRoom n).toList = [] := by
  refine ⟨?_, fun n => ⟨⟨⟨_, rfl⟩, rfl, Array.size_replicate, rfl⟩, rfl⟩⟩
  obtain ⟨m', b', hrun, hrun', hm', hlist⟩ := hm.runAll hcalls
  exact ⟨m', b', hrun, hrun', hm', hlist ▸ hm'.length, hlist ▸ hm'.bytes_eq, hlist⟩

def mixedCalls : List BufferCall :=
  [.short (-2), .setShort 1 0x1234, .append { bytes := #[7] } [9, 9], .zeros 2, .text [0xC3, 0xA9]]

theorem refines_list_mixed : ∃ m b, Backing.runAll ⟨#[1, 8, 8, 8], 1, none⟩ mixedCalls = .ok m ∧
    Buffer.runAll { bytes := #[1], room := 4 } mixedCalls = .ok b ∧ m.length = b.toList.length ∧
    b.toList = mixedCalls.foldl BufferCall.result [1] := by
  have hcalls : BufferCall.AllAllowed [1] mixedCalls :=
    ⟨trivial, Nat.le_refl 3, trivial, (by decide : (0 : Int) ≤ 2), trivial, trivial⟩
  obtain ⟨⟨m, b, hrun, hrun', hm, -, -, hlist⟩, -⟩ :=
    refines_list (m := ⟨#[1, 8, 8, 8], 1, none⟩) (b := { bytes := #[1], room := 4 })
      ⟨⟨[8, 8, 8], rfl⟩, rfl, rfl, rfl⟩ hcalls
  exact ⟨m, b, hrun, hrun', hm.length, hlist⟩

end Backing

end ClassAssembler
