import ClassAssembler.Proofs.Layout
import ClassAssembler.Proofs.Spelling

/-!
# Instructions as they are written

An item is one instruction of the machine in code that is being written: an instruction without
targets with its bytes, or a jump or a switch to labels.  Items are laid out as pieces.  Once the
labels have positions, the machine reads an item as the instruction it stands for
(`Item.decode?_item`), and a list of items as the list of these instructions
(`Item.disassembles`).
-/

namespace ClassAssembler

open Machine Instruction Buffer List Piece

inductive Item where
  | fixed (i : Instruction LabelId) (bs : List UInt8)
  | short (op : Nat) (l : LabelId)
  | wide (op : Nat) (l : LabelId)
  | skip (op : Nat)
  | table (low high : Int) (fallback : LabelId) (targets : List LabelId)
  | lookup (fallback : LabelId) (keys : List Int) (targets : List LabelId)

namespace Item

variable {i : Item} {pos : LabelId → Nat} {op : Nat} {p : Pool} {r : Positions}

/-- The operation of a switch, with its operands aligned to four bytes. -/
def switchHead (op o : Nat) : List UInt8 := low8 op :: List.replicate (padding o) 0

def pieces (o : Nat) : Item → List Piece
  | fixed _ bs => [.bytes bs]
  | short op l => [.short (low8 op) l]
  | wide op l => [.bytes [low8 op], .wide o l]
  | skip op => [.bytes (low8 op :: bytes16 8)]
  | table low high fallback targets =>
    [.bytes (switchHead 170 o), .wide o fallback,
      .bytes (bytes32 low ++ bytes32 high)] ++ targets.map (.wide o)
  | lookup fallback keys targets =>
    [.bytes (switchHead 171 o), .wide o fallback, .bytes (bytes32 targets.length)] ++
      (keys.zip targets).flatMap fun row => [.bytes (bytes32 row.1), .wide o row.2]

def labels : Item → List LabelId
  | fixed .. | skip _ => []
  | short _ l | wide _ l => [l]
  | table _ _ fallback targets => fallback :: targets
  | lookup fallback _ targets => fallback :: targets

def size (o : Nat) (i : Item) : Nat := sizeAll (i.pieces o)

def reads (t : LabelId → Int) (o : Nat) : Item → Instruction Int
  | fixed i _ => i.mapTargets t
  | short op l => .jump op (t l)
  | wide op l => .jump (if op = 220 then 200 else op : Nat) (t l)
  | skip op => .jump op (o + 8)
  | table low high fallback targets => .tableSwitch low high (t fallback) (targets.map t)
  | lookup fallback keys targets => .lookupSwitch (t fallback) keys (targets.map t)

def isPending (r : Positions) (o : Nat) : Item → Bool
  | short op l => (Piece.short (low8 op) l).isPending r o
  | wide op _ => op = 220
  | _ => false

def Sound (p : Pool) : Item → Prop
  | fixed i bs => i.Regular ∧ i.Spelled p bs
  | short op _ => shape? op = some .branch
  | wide op _ => op = 200 ∨ op = 201 ∨ op = 220
  | skip op => shape? op = some .branch
  | table low high fallback targets => (tableSwitch low high fallback targets).Regular
  | lookup fallback keys targets => (lookupSwitch fallback keys targets).Regular

theorem Sound.mono {q : Pool} (h : p.Extends q) (hi : i.Sound p) : i.Sound q := by
  cases i with
  | fixed i bs => exact ⟨hi.1, hi.2.mono h⟩
  | _ => exact hi

def Ahead (r : Positions) (o : Nat) : Item → Prop
  | short _ l => ∀ t, r l = some t → fitsShort (t - o) ∨ o ≤ t
  | _ => True

/-! ## Reading jumps -/

theorem branch_iff : shape? op = some .branch ↔
    153 ≤ op ∧ op ≤ 168 ∨ 198 ≤ op ∧ op ≤ 199 := by
  have hall : ∀ op < 221, shape? op = some .branch ↔
      153 ≤ op ∧ op ≤ 168 ∨ 198 ≤ op ∧ op ≤ 199 := by
    decide +kernel
  constructor
  · intro h
    exact (hall op (Nat.lt_succ_of_le (le_of_shape? h))).1 h
  · intro h
    exact (hall op (by omega)).2 h

theorem shape?_pendingOp (h : shape? op = some .branch) :
    shape? (pendingOp (low8 op)).toNat = some .pendingBranch ∧
      pendingFor (pendingOp (low8 op)).toNat = op := by
  have hall : ∀ op < 256, shape? op = some .branch →
      shape? (pendingOp (UInt8.ofNat op)).toNat = some .pendingBranch ∧
        pendingFor (pendingOp (UInt8.ofNat op)).toNat = op := by
    decide +kernel
  have hlt : op < 256 := Nat.lt_of_le_of_lt (le_of_shape? h) (by decide)
  have hop : low8 op = UInt8.ofNat op := by
    apply UInt8.toNat_inj.1
    rw [toNat_low8 hlt]
    simp [Nat.mod_eq_of_lt hlt]
  rw [hop]
  exact hall op hlt h

theorem decode?_jumpBytes (hop : shape? op = some .branch) (o : Nat) (d : Int) (rest : List UInt8) :
    decode? p o (jumpBytes (low8 op) d ++ rest) =
      some ⟨.jump op (o + if fitsShort d then d else (unsigned (bytes16 d) : Int)), 3,
        !fitsShort d⟩ := by
  have hslice : slice? 0 2 (bytes16 d ++ rest) = some (bytes16 d) := slice?_start rfl
  by_cases hfit : fitsShort d
  · have hrange : -32768 ≤ d ∧ d ≤ 32767 := by
      simpa [fitsShort] using hfit
    rw [jumpBytes, if_pos hfit, if_pos hfit, cons_append, decode?_cons hop, hfit,
      operands?]
    refine Option.bind_eq_some_iff.2 ⟨_, hslice, ?_⟩
    rw [signed_bytes16 hrange.1 hrange.2, Bool.not_true]
  · obtain ⟨hshape, hfor⟩ := shape?_pendingOp hop
    rw [jumpBytes, if_neg hfit, if_neg hfit, cons_append, decode?, hshape,
      Option.bind_some, operands?]
    refine Option.bind_eq_some_iff.2 ⟨_, hslice, ?_⟩
    rw [hfor, Bool.of_not_eq_true hfit, Bool.not_false]

def wrap32 (d : Int) : Int := signed (bytes32 d)

theorem wrap32_eq {d : Int} (h : IsInt32 d) : wrap32 d = d := signed_bytes32 h.1 h.2

theorem decode?_wide (hop : op = 200 ∨ op = 201 ∨ op = 220) (o : Nat) (d : Int)
    (rest : List UInt8) : decode? p o (low8 op :: (bytes32 d ++ rest)) =
      some ⟨.jump (if op = 220 then 200 else op : Nat) (o + wrap32 d), 5, op = 220⟩ := by
  have hslice : slice? 0 4 (bytes32 d ++ rest) = some (bytes32 d) := slice?_start rfl
  have hshape : shape? 200 = some .wideBranch ∧ shape? 201 = some .wideBranch ∧
      shape? 220 = some .pendingWideBranch := by
    decide
  rcases hop with rfl | rfl | rfl
  · rw [decode?_cons hshape.1, operands?]
    exact Option.bind_eq_some_iff.2 ⟨_, hslice, rfl⟩
  · rw [decode?_cons hshape.2.1, operands?]
    exact Option.bind_eq_some_iff.2 ⟨_, hslice, rfl⟩
  · rw [decode?_cons hshape.2.2, operands?]
    exact Option.bind_eq_some_iff.2 ⟨_, hslice, rfl⟩

/-! ## Reading switches -/

theorem words?_flatMap (xs : List Int) (before rest : List UInt8) :
    words? (before ++ (xs.flatMap bytes32 ++ rest)) before.length xs.length =
      some (xs.map wrap32) := by
  induction xs generalizing before with
  | nil => rfl
  | cons x xs ih =>
    have hslice : slice? before.length 4
        (before ++ (bytes32 x ++ (xs.flatMap bytes32 ++ rest))) =
          some (bytes32 x) :=
      slice?_append rfl rfl
    have hrest := ih (before ++ bytes32 x)
    have hlen : (before ++ bytes32 x).length = before.length + 4 := by
      simp [bytes32]
    rw [hlen, append_assoc] at hrest
    rw [flatMap_cons, append_assoc, length_cons, words?]
    exact Option.bind_eq_some_iff.2 ⟨_, hslice, Option.bind_eq_some_iff.2 ⟨_, hrest, rfl⟩⟩

theorem pairs?_flatMap (xs : List (Int × Int)) (before rest : List UInt8) :
    pairs? (before ++ (xs.flatMap (fun x => bytes32 x.1 ++ bytes32 x.2) ++ rest))
      before.length xs.length = some (xs.map fun x => (wrap32 x.1, wrap32 x.2)) := by
  induction xs generalizing before with
  | nil => rfl
  | cons x xs ih =>
    have hkey : slice? before.length 4 (before ++ (bytes32 x.1 ++ (bytes32 x.2 ++
        (xs.flatMap (fun x => bytes32 x.1 ++ bytes32 x.2) ++ rest)))) =
          some (bytes32 x.1) :=
      slice?_append rfl rfl
    have hvalue : slice? (before.length + 4) 4 ((before ++ bytes32 x.1) ++
        (bytes32 x.2 ++
          (xs.flatMap (fun x => bytes32 x.1 ++ bytes32 x.2) ++ rest))) =
          some (bytes32 x.2) :=
      slice?_append (by simp [bytes32]) rfl
    have hrest := ih (before ++ bytes32 x.1 ++ bytes32 x.2)
    have hlen : (before ++ bytes32 x.1 ++ bytes32 x.2).length =
        before.length + 8 := by
      simp [bytes32]
    rw [hlen] at hrest
    simp only [append_assoc] at hvalue hrest
    rw [flatMap_cons, append_assoc, append_assoc, length_cons, pairs?]
    exact Option.bind_eq_some_iff.2 ⟨_, hkey, Option.bind_eq_some_iff.2
      ⟨_, hvalue, Option.bind_eq_some_iff.2 ⟨_, hrest, rfl⟩⟩⟩

theorem decode?_tableBytes (o : Nat) {low high : Int} (d : Int) (ds : List Int) (hlow : IsInt32 low)
    (hhigh : IsInt32 high) (hle : low ≤ high) (hds : high - low + 1 = ds.length)
    (rest : List UInt8) : decode? p o (switchHead 170 o ++ (bytes32 d ++ (bytes32 low ++
      (bytes32 high ++ (ds.flatMap bytes32 ++ rest))))) =
      some ⟨.tableSwitch low high (o + wrap32 d) (ds.map fun x => o + wrap32 x),
        1 + padding o + 12 + 4 * ds.length, false⟩ := by
  have hshape : shape? 170 = some .tableSwitch := by decide
  let zeros := List.replicate (padding o) (0 : UInt8)
  have hzeros : zeros.length = padding o := length_replicate
  have hfallback : slice? (padding o) 4 (zeros ++ (bytes32 d ++ (bytes32 low ++
      (bytes32 high ++ (ds.flatMap bytes32 ++ rest))))) = some (bytes32 d) :=
    slice?_append hzeros rfl
  have hlowAt : slice? (padding o + 4) 4 ((zeros ++ bytes32 d) ++ (bytes32 low ++
      (bytes32 high ++ (ds.flatMap bytes32 ++ rest)))) = some (bytes32 low) :=
    slice?_append (by rw [length_append, hzeros]; rfl) rfl
  have hhighAt : slice? (padding o + 8) 4 ((zeros ++ bytes32 d ++ bytes32 low) ++
      (bytes32 high ++ (ds.flatMap bytes32 ++ rest))) = some (bytes32 high) :=
    slice?_append (by rw [length_append, length_append, hzeros]; rfl) rfl
  have hrows := words?_flatMap ds (zeros ++ bytes32 d ++ bytes32 low ++
    bytes32 high) rest
  have hlen : (zeros ++ bytes32 d ++ bytes32 low ++ bytes32 high).length =
      padding o + 12 := by
    rw [length_append, length_append, length_append, hzeros]
    rfl
  rw [hlen] at hrows
  simp only [append_assoc] at hlowAt hhighAt hrows
  have hcount : (high - low + 1).toNat = ds.length := by omega
  refine (decode?_cons hshape).trans ?_
  rw [operands?, tableSwitch?]
  refine Option.bind_eq_some_iff.2 ⟨_, hfallback, Option.bind_eq_some_iff.2
    ⟨_, hlowAt, Option.bind_eq_some_iff.2 ⟨_, hhighAt, ?_⟩⟩⟩
  rw [signed_bytes32 hlow.1 hlow.2, signed_bytes32 hhigh.1 hhigh.2, if_pos hle]
  dsimp only
  rw [hcount]
  refine Option.bind_eq_some_iff.2 ⟨_, hrows, ?_⟩
  rw [map_map]
  rfl

theorem map_fst_of_fixed {rows : List (Int × Int)} {w : Int → Int}
    (h : ∀ row ∈ rows, w row.1 = row.1) :
    (rows.map fun x => (w x.1, w x.2)).map Prod.fst = rows.map Prod.fst := by
  rw [map_map]
  exact map_congr_left h

theorem decode?_lookupBytes (o : Nat) (d : Int) {rows : List (Int × Int)}
    (hkeys : ∀ row ∈ rows, IsInt32 row.1) (hcount : rows.length ≤ 0x7fffffff) (rest : List UInt8) :
    decode? p o (switchHead 171 o ++ (bytes32 d ++ (bytes32 rows.length ++
      (rows.flatMap (fun x => bytes32 x.1 ++ bytes32 x.2) ++ rest)))) =
      some ⟨.lookupSwitch (o + wrap32 d) (rows.map Prod.fst) (rows.map fun x => o + wrap32 x.2),
        1 + padding o + 8 + 8 * rows.length, false⟩ := by
  have hshape : shape? 171 = some .lookupSwitch := by decide
  let zeros := List.replicate (padding o) (0 : UInt8)
  have hzeros : zeros.length = padding o := length_replicate
  have hfallback : slice? (padding o) 4 (zeros ++ (bytes32 d ++ (bytes32 rows.length ++
      (rows.flatMap (fun x => bytes32 x.1 ++ bytes32 x.2) ++ rest)))) =
        some (bytes32 d) :=
    slice?_append hzeros rfl
  have hcountAt : slice? (padding o + 4) 4 ((zeros ++ bytes32 d) ++
      (bytes32 rows.length ++
        (rows.flatMap (fun x => bytes32 x.1 ++ bytes32 x.2) ++ rest))) =
        some (bytes32 rows.length) :=
    slice?_append (by rw [length_append, hzeros]; rfl) rfl
  have hrows := pairs?_flatMap rows (zeros ++ bytes32 d ++ bytes32 rows.length) rest
  have hlen : (zeros ++ bytes32 d ++ bytes32 rows.length).length =
      padding o + 8 := by
    rw [length_append, length_append, hzeros]
    rfl
  rw [hlen] at hrows
  simp only [append_assoc] at hcountAt hrows
  have hkeys' : (rows.map fun x => (wrap32 x.1, wrap32 x.2)).map Prod.fst = rows.map Prod.fst :=
    map_fst_of_fixed fun row hrow => wrap32_eq (hkeys row hrow)
  refine (decode?_cons hshape).trans ?_
  rw [operands?, lookupSwitch?]
  refine Option.bind_eq_some_iff.2 ⟨_, hfallback, Option.bind_eq_some_iff.2 ⟨_, hcountAt, ?_⟩⟩
  rw [signed_bytes32 (by omega) (by omega), if_pos (Int.natCast_nonneg _)]
  dsimp only
  rw [Int.toNat_natCast]
  refine Option.bind_eq_some_iff.2 ⟨_, hrows, ?_⟩
  rw [hkeys', map_map]
  rfl

/-! ## Reading items -/

theorem encodeAll_wides {ls : List LabelId} (h : ∀ l ∈ ls, r l = some (pos l)) (source o : Nat) :
    encodeAll r o (ls.map (.wide source)) =
      (ls.map fun l => (pos l : Int) - source).flatMap bytes32 := by
  induction ls generalizing o with
  | nil => rfl
  | cons l ls ih =>
    rw [map_cons, encodeAll, ih fun k hk => h k (mem_cons_of_mem l hk), encode,
      h l mem_cons_self]
    rfl

theorem encodeAll_rows {rows : List (Int × LabelId)} (h : ∀ row ∈ rows, r row.2 = some (pos row.2))
    (source o : Nat) :
    Piece.encodeAll r o
        (rows.flatMap fun row => [.bytes (bytes32 row.1), .wide source row.2]) =
      (rows.map fun row => (row.1, (pos row.2 : Int) - source)).flatMap fun x =>
        bytes32 x.1 ++ bytes32 x.2 := by
  induction rows generalizing o with
  | nil => rfl
  | cons row rows ih =>
    rw [flatMap_cons, cons_append, cons_append, nil_append, Piece.encodeAll,
      Piece.encodeAll, ih fun k hk => h k (mem_cons_of_mem row hk), Piece.encode, Piece.encode,
      h row mem_cons_self, map_cons, flatMap_cons, append_assoc]

theorem size_table (o : Nat) (low high : Int) (fallback : LabelId) (targets : List LabelId) :
    (table low high fallback targets).size o = 1 + padding o + 12 + 4 * targets.length := by
  have hwides : Piece.sizeAll (targets.map (.wide o)) = 4 * targets.length := by
    induction targets with
    | nil => rfl
    | cons l ls ih =>
      rw [map_cons, Piece.sizeAll_cons, ih, length_cons, Piece.size]
      omega
  simp only [size, pieces, Piece.sizeAll_append, Piece.sizeAll_cons, Piece.sizeAll_nil, hwides,
    Piece.size, switchHead, bytes32, length_cons, length_append,
    length_replicate, length_nil]
  omega

theorem size_lookup (o : Nat) (fallback : LabelId) {keys : List Int} {targets : List LabelId}
    (h : keys.length = targets.length) :
    (lookup fallback keys targets).size o = 1 + padding o + 8 + 8 * targets.length := by
  have hrows (rows : List (Int × LabelId)) : Piece.sizeAll (rows.flatMap fun row =>
      [.bytes (bytes32 row.1), .wide o row.2]) = 8 * rows.length := by
    induction rows with
    | nil => rfl
    | cons row rows ih =>
      rw [flatMap_cons, Piece.sizeAll_append, ih, length_cons]
      simp only [Piece.sizeAll_cons, Piece.sizeAll_nil, Piece.size, bytes32, length_cons,
        length_nil]
      omega
  simp only [size, pieces, Piece.sizeAll_append, hrows, length_zip, h, Nat.min_self]
  simp only [Piece.sizeAll_cons, Piece.sizeAll_nil, Piece.size, switchHead, bytes32,
    length_cons, length_replicate, length_nil]
  omega

theorem map_snd_zip {keys : List Int} {targets : List LabelId} (h : keys.length = targets.length)
    (d : LabelId → Int) (w : Int → Int) :
    ((keys.zip targets).map fun row => (row.1, d row.2)).map (fun x => w x.2) =
      targets.map fun l => w (d l) := by
  calc ((keys.zip targets).map fun row => (row.1, d row.2)).map (fun x => w x.2)
      = ((keys.zip targets).map Prod.snd).map fun l => w (d l) := by
        rw [map_map, map_map]
        rfl
    _ = targets.map fun l => w (d l) := by
        rw [List.map_snd_zip (Nat.le_of_eq h.symm)]

/-- The machine reads an item as the instruction it stands for; its targets are the positions of
the labels in code that is not too long. -/
theorem decode?_item (hi : i.Sound p) (o : Nat) (hr : ∀ l ∈ i.labels, r l = some (pos l))
    (rest : List UInt8) :
    ∃ t : LabelId → Int, decode? p o (Piece.encodeAll r o (i.pieces o) ++ rest) =
        some ⟨i.reads t o, i.size o, i.isPending r o⟩ ∧
      (o ≤ 65535 → (∀ l ∈ i.labels, pos l ≤ 65535) → i.Ahead r o →
        ∀ l ∈ i.labels, t l = pos l) := by
  cases i with
  | fixed i bs =>
    refine ⟨fun _ => 0, ?_, fun _ _ _ l hl => absurd hl not_mem_nil⟩
    rw [pieces, Piece.encodeAll, Piece.encodeAll, append_nil, Piece.encode]
    exact hi.2.decode? hi.1 _ o rest
  | short op l =>
    have hl : r l = some (pos l) := hr l mem_cons_self
    have hpend : (short op l).isPending r o = !fitsShort (pos l - o) := by
      simp only [isPending, Piece.isPending, hl]
    refine ⟨fun _ => o + if fitsShort (pos l - o) then (pos l - o : Int)
      else (unsigned (bytes16 (pos l - o)) : Int), ?_, fun ho hpos hahead k hk => ?_⟩
    · rw [pieces, encodeAll, encodeAll, append_nil, encode, hl, hpend]
      exact decode?_jumpBytes hi o _ rest
    · obtain rfl : k = l := by simpa [labels] using hk
      have hk := hpos k hk
      dsimp only
      split
      · omega
      · next hfit =>
        have hle : o ≤ pos k := (hahead _ hl).resolve_left hfit
        have hunsigned := unsigned_bytes16 ((pos k : Int) - o)
        omega
  | wide op l =>
    have hl : r l = some (pos l) := hr l mem_cons_self
    refine ⟨fun _ => o + wrap32 (pos l - o), ?_, fun ho hpos _ k hk => ?_⟩
    · rw [pieces, encodeAll, encodeAll, encodeAll, append_nil, encode,
        encode, hl]
      exact decode?_wide hi o _ rest
    · obtain rfl : k = l := by simpa [labels] using hk
      have hk := hpos k hk
      dsimp only
      rw [wrap32_eq ⟨by omega, by omega⟩]
      omega
  | skip op =>
    refine ⟨fun _ => 0, ?_, fun _ _ _ l hl => absurd hl not_mem_nil⟩
    rw [pieces, encodeAll, encodeAll, append_nil, encode]
    exact decode?_jumpBytes hi o 8 rest
  | table low high fallback targets =>
    obtain ⟨hlow, hhigh, hle, hcount⟩ := hi
    have hfallback : r fallback = some (pos fallback) := hr fallback mem_cons_self
    have htargets : ∀ l ∈ targets, r l = some (pos l) :=
      fun l hl => hr l (mem_cons_of_mem fallback hl)
    refine ⟨fun l => o + wrap32 (pos l - o), ?_, fun ho hpos _ k hk => ?_⟩
    · have h := decode?_tableBytes (p := p) o (pos fallback - o)
        (targets.map fun l => (pos l : Int) - o) hlow hhigh hle (by simpa using hcount) rest
      rw [map_map, length_map] at h
      rw [size_table]
      refine Eq.trans ?_ h
      simp only [pieces, encodeAll, encode, hfallback, encodeAll_wides htargets,
        append_assoc, cons_append, nil_append]
    · have hk := hpos k hk
      dsimp only
      rw [wrap32_eq ⟨by omega, by omega⟩]
      omega
  | lookup fallback keys targets =>
    obtain ⟨hkeys, hlen, hcount⟩ := hi
    have hfallback : r fallback = some (pos fallback) := hr fallback mem_cons_self
    have htargets : ∀ row ∈ keys.zip targets, r row.2 = some (pos row.2) :=
      fun row hrow => hr row.2 (mem_cons_of_mem fallback (of_mem_zip hrow).2)
    have hzip : (keys.zip targets).length = targets.length := by
      rw [length_zip, hlen, Nat.min_self]
    refine ⟨fun l => o + wrap32 (pos l - o), ?_, fun ho hpos _ k hk => ?_⟩
    · have hkeys' : ∀ x ∈ (keys.zip targets).map fun row => (row.1, (pos row.2 : Int) - o),
          IsInt32 x.1 := by
        intro row hrow
        obtain ⟨x, hx, rfl⟩ := mem_map.1 hrow
        exact hkeys x.1 (of_mem_zip hx).1
      have h := decode?_lookupBytes (p := p) o (pos fallback - o) hkeys'
        (by simpa [hlen] using hcount) rest
      have hfst : ((keys.zip targets).map fun row => (row.1, (pos row.2 : Int) - o)).map Prod.fst =
          keys := by
        rw [map_map]
        exact map_fst_zip (Nat.le_of_eq hlen)
      rw [hfst, map_snd_zip hlen (fun l => (pos l : Int) - o) (fun x => o + wrap32 x),
        length_map, hzip] at h
      rw [size_lookup o fallback hlen]
      refine Eq.trans ?_ h
      simp only [pieces, encodeAll, encode, hfallback, encodeAll_rows htargets,
        append_assoc, cons_append, nil_append]
    · have hk := hpos k hk
      dsimp only
      rw [wrap32_eq ⟨by omega, by omega⟩]
      omega

/-! ## Reading lists of items -/

def layout : Nat → List Item → List Piece
  | _, [] => []
  | o, i :: is => i.pieces o ++ layout (o + i.size o) is

def stop : Nat → List Item → Nat
  | o, [] => o
  | o, i :: is => stop (o + i.size o) is

def placed : Nat → List Item → List (Nat × Item)
  | _, [] => []
  | o, i :: is => (o, i) :: placed (o + i.size o) is

theorem stop_append (o : Nat) (is js : List Item) : stop o (is ++ js) = stop (stop o is) js := by
  induction is generalizing o with
  | nil => rfl
  | cons i is ih => exact ih (o + i.size o)

theorem layout_append (o : Nat) (is js : List Item) :
    layout o (is ++ js) = layout o is ++ layout (stop o is) js := by
  induction is generalizing o with
  | nil => rfl
  | cons i is ih => rw [cons_append, layout, layout, ih, append_assoc, stop]

theorem placed_append (o : Nat) (is js : List Item) :
    placed o (is ++ js) = placed o is ++ placed (stop o is) js := by
  induction is generalizing o with
  | nil => rfl
  | cons i is ih => rw [cons_append, placed, placed, ih, cons_append, stop]

theorem sizeAll_layout (o : Nat) (is : List Item) : o + sizeAll (layout o is) = stop o is := by
  induction is generalizing o with
  | nil => rfl
  | cons i is ih =>
    rw [layout, sizeAll_append, stop, ← ih, size]
    omega

theorem le_stop (o : Nat) (is : List Item) : o ≤ stop o is := by
  have := sizeAll_layout o is
  omega

theorem size_pos (hi : i.Sound p) (o : Nat) : 0 < i.size o := by
  cases i with
  | fixed i bs =>
    have h := hi.2.decode? hi.1 (fun _ => 0) 0 []
    cases bs with
    | nil => cases h
    | cons b bs => simp [size, pieces, Piece.size]
  | short op l => exact Nat.zero_lt_succ 2
  | wide op l => exact Nat.zero_lt_succ 4
  | skip op => exact Nat.zero_lt_succ 2
  | table low high fallback targets =>
    rw [size_table]
    omega
  | lookup fallback keys targets =>
    rw [size_lookup o fallback hi.2.1]
    omega

/-- What the machine reads at an offset is the instruction that an item stands for. -/
def Read (r : Positions) (pos : LabelId → Nat) (x : Nat × Item) (y : Nat × Decoded) : Prop :=
  x.1 = y.1 ∧ ∃ t : LabelId → Int, y.2 = ⟨x.2.reads t x.1, x.2.size x.1, x.2.isPending r x.1⟩ ∧
    (x.1 ≤ 65535 → (∀ l ∈ x.2.labels, pos l ≤ 65535) → x.2.Ahead r x.1 →
      ∀ l ∈ x.2.labels, t l = pos l)

theorem drop_layout (r : Positions) (before : List Item) (i : Item) (is : List Item) :
    (encodeAll r 0 (layout 0 (before ++ i :: is))).drop (stop 0 before) =
      encodeAll r (stop 0 before) (i.pieces (stop 0 before)) ++
        encodeAll r (stop 0 before + i.size (stop 0 before))
          (layout (stop 0 before + i.size (stop 0 before)) is) := by
  have hsize : sizeAll (layout 0 before) = stop 0 before := by
    rw [← sizeAll_layout 0 before, Nat.zero_add]
  rw [layout_append, encodeAll_append, Nat.zero_add, hsize, layout, encodeAll_append,
    ← hsize, ← length_encodeAll r 0 (layout 0 before), drop_left]
  rfl

/-- The code of sound items is read item by item, from any of them on. -/
theorem disassembles (before items : List Item) {code : List UInt8}
    (hcode : code = encodeAll r 0 (layout 0 (before ++ items))) (hsound : ∀ i ∈ items, i.Sound p)
    (hr : ∀ i ∈ items, ∀ l ∈ i.labels, r l = some (pos l)) :
    ∃ ds, Disassembles p code (stop 0 before) ds ∧
      Forall₂ (Read r pos) (placed (stop 0 before) items) ds := by
  induction items generalizing before with
  | nil =>
    refine ⟨[], ?_, .nil⟩
    have hlen : code.length = stop 0 before := by
      rw [hcode, append_nil, length_encodeAll, ← sizeAll_layout 0 before, Nat.zero_add]
    rw [← hlen]
    exact .done
  | cons i is ih =>
    obtain ⟨t, ht, hpos⟩ := decode?_item (hsound i mem_cons_self) (stop 0 before)
      (hr i mem_cons_self) (encodeAll r (stop 0 before + i.size (stop 0 before))
        (layout (stop 0 before + i.size (stop 0 before)) is))
    have hstop : stop 0 (before ++ [i]) = stop 0 before + i.size (stop 0 before) := by
      rw [stop_append]
      rfl
    obtain ⟨ds, hds, hread⟩ := ih (before ++ [i]) (by rw [hcode, append_assoc]; rfl)
      (fun j hj => hsound j (mem_cons_of_mem i hj))
      (fun j hj => hr j (mem_cons_of_mem i hj))
    rw [hstop] at hds hread
    refine ⟨(stop 0 before, ⟨i.reads t (stop 0 before), i.size (stop 0 before),
      i.isPending r (stop 0 before)⟩) :: ds, .step ?_ hds, .cons ⟨rfl, t, rfl, hpos⟩ hread⟩
    rw [decodeAt?, hcode, drop_layout, ht]

end Item

end ClassAssembler
