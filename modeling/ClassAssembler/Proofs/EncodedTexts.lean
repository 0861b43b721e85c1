import ClassAssembler.Pool

/-!
# Texts in class files

A text stands in a class file as the bytes of its UTF-16 units behind their number.
`Buffer.putText` writes the number of units first and the units as they are, and only at the first
unit that takes more than one byte counts the bytes, corrects the number and goes on, or takes
everything back.  None of this can be seen from the bytes: a text is written whole or not at all
(`Buffer.putText_whole_or_refused`), and reading the bytes by the rules of the format gives its
units.
-/

namespace ClassAssembler

open List Text

/-! ## Reading -/

namespace Format

abbrev Units := List UInt16

def isContinuation (b : UInt8) : Bool := 0x80 ≤ b.toNat && b.toNat < 0xC0

/-- The units of a text in the encoding of class files: a unit is one byte, two or three, and no
byte is zero. -/
def decodeUnits : List UInt8 → Option Units
  | [] => some []
  | x :: rest =>
    if 1 ≤ x.toNat ∧ x.toNat < 0x80 then
      (decodeUnits rest).map (UInt16.ofNat x.toNat :: ·)
    else
      match rest with
      | [] => none
      | y :: rest =>
        if 0xC0 ≤ x.toNat ∧ x.toNat < 0xE0 ∧ isContinuation y then
          (decodeUnits rest).map (UInt16.ofNat ((x.toNat - 0xC0) * 64 + (y.toNat - 0x80)) :: ·)
        else
          match rest with
          | [] => none
          | z :: rest =>
            if 0xE0 ≤ x.toNat ∧ x.toNat < 0xF0 ∧ isContinuation y ∧ isContinuation z then
              (decodeUnits rest).map (UInt16.ofNat ((x.toNat - 0xE0) * 4096 +
                (y.toNat - 0x80) * 64 + (z.toNat - 0x80)) :: ·)
            else none

theorem toNat_ofNat_byte {n : Nat} (h : n < 256) : (UInt8.ofNat n).toNat = n := by
  rw [UInt8.toNat_ofNat']
  exact Nat.mod_eq_of_lt h

theorem isContinuation_ofNat {n : Nat} (h : n < 64) : isContinuation (UInt8.ofNat (0x80 + n)) := by
  rw [isContinuation, toNat_ofNat_byte (by omega)]
  simp
  omega

theorem decodeUnits_encodeUnit (u : UInt16) (rest : List UInt8) :
    decodeUnits (encodeUnit u ++ rest) = (decodeUnits rest).map (u :: ·) := by
  have hlt := u.toNat_lt
  have hself : UInt16.ofNat u.toNat = u := UInt16.ofNat_toNat
  unfold encodeUnit
  dsimp only
  split
  next hone =>
    have hfirst : 1 ≤ u.toNat ∧ u.toNat < 0x80 := by omega
    rw [singleton_append, decodeUnits.eq_def]
    dsimp only
    rw [toNat_ofNat_byte (by omega), if_pos hfirst, hself]
  next hone =>
    split
    next htwo =>
      have hy := isContinuation_ofNat (Nat.mod_lt u.toNat (by decide : 64 > 0))
      have hvalue : (0xC0 + u.toNat / 64 - 0xC0) * 64 + (0x80 + u.toNat % 64 - 0x80) = u.toNat := by
        omega
      rw [cons_append, singleton_append, decodeUnits.eq_def]
      dsimp only
      rw [toNat_ofNat_byte (n := 0xC0 + u.toNat / 64) (by omega), if_neg (by omega),
        if_pos ⟨by omega, by omega, hy⟩, toNat_ofNat_byte (by omega), hvalue, hself]
    next htwo =>
      have hy := isContinuation_ofNat (Nat.mod_lt (u.toNat / 64) (by decide : 64 > 0))
      have hz := isContinuation_ofNat (Nat.mod_lt u.toNat (by decide : 64 > 0))
      have hvalue : (0xE0 + u.toNat / 4096 - 0xE0) * 4096 + (0x80 + u.toNat / 64 % 64 - 0x80) * 64 +
          (0x80 + u.toNat % 64 - 0x80) = u.toNat := by
        omega
      rw [cons_append, cons_append, singleton_append, decodeUnits.eq_def]
      dsimp only
      rw [toNat_ofNat_byte (n := 0xE0 + u.toNat / 4096) (by omega), if_neg (by omega),
        if_neg (by omega), if_pos ⟨by omega, by omega, hy, hz⟩, toNat_ofNat_byte (by omega),
        toNat_ofNat_byte (by omega), hvalue, hself]

theorem decodeUnits_encodeUnits (us : Units) : decodeUnits (encodeUnits us) = some us := by
  induction us with
  | nil => rfl
  | cons u us ih =>
    have hsplit : encodeUnits (u :: us) = encodeUnit u ++ encodeUnits us :=
      flatMap_cons
    rw [hsplit, decodeUnits_encodeUnit, ih]
    rfl

theorem decodeUnits_modifiedUtf8 (t : Text) : decodeUnits t.modifiedUtf8 = some t.units :=
  decodeUnits_encodeUnits t.units

end Format

/-! ## Lengths -/

namespace Text

theorem encodeUnits_append (us vs : List UInt16) :
    encodeUnits (us ++ vs) = encodeUnits us ++ encodeUnits vs :=
  flatMap_append

theorem encodeUnit_of_isPlain {u : UInt16} (h : isPlain u) : encodeUnit u = [u.toUInt8] := by
  have hu : 1 ≤ u.toNat ∧ u.toNat ≤ 0x7F := by simpa [isPlain] using h
  have hbyte : UInt8.ofNat u.toNat = u.toUInt8 := rfl
  rw [encodeUnit, if_pos hu, hbyte]

theorem length_encodeUnit (u : UInt16) : (encodeUnit u).length = unitLength u := by
  by_cases hplain : isPlain u
  · rw [encodeUnit_of_isPlain hplain, unitLength, if_pos hplain]
    rfl
  · have hu : ¬ (1 ≤ u.toNat ∧ u.toNat ≤ 0x7F) := by simpa [isPlain] using hplain
    rw [unitLength, if_neg hplain, encodeUnit, if_neg hu]
    by_cases htwo : u.toNat ≤ 0x7FF
    · rw [if_pos htwo, if_neg (by omega)]
      rfl
    · rw [if_neg htwo, if_pos (by omega)]
      rfl

theorem length_encodeUnits_cons (u : UInt16) (us : List UInt16) :
    (encodeUnits (u :: us)).length = unitLength u + (encodeUnits us).length := by
  rw [encodeUnits, flatMap_cons, length_append, length_encodeUnit]
  rfl

theorem addUnitLengths_eq (n : Nat) (us : List UInt16) :
    addUnitLengths n us = n + (encodeUnits us).length := by
  induction us generalizing n with
  | nil => rfl
  | cons u us ih => rw [addUnitLengths, ih, length_encodeUnits_cons, Nat.add_assoc]

theorem unitLength_pos (u : UInt16) : 1 ≤ unitLength u := by
  unfold unitLength
  split
  · exact Nat.le_refl 1
  · split <;> omega

theorem length_le_encodeUnits (us : List UInt16) : us.length ≤ (encodeUnits us).length := by
  induction us with
  | nil => exact Nat.le_refl 0
  | cons u us ih =>
    have hu := unitLength_pos u
    rw [length_encodeUnits_cons, length_cons]
    omega

theorem zero_notMem_encodeUnit (u : UInt16) : 0 ∉ encodeUnit u := by
  have hlt := u.toNat_lt
  -- none of the numbers whose low bytes are stored is a multiple of 256
  have hne {n : Nat} (hpos : 0 < n) (hn : n < 256) : (0 : UInt8) ≠ UInt8.ofNat n := by
    intro h
    have := congrArg UInt8.toNat h
    rw [Format.toNat_ofNat_byte hn] at this
    exact absurd this (Nat.ne_of_lt hpos)
  unfold encodeUnit
  dsimp only
  split
  next hone =>
    simp only [mem_singleton]
    exact hne (by omega) (by omega)
  next =>
    split
    · simp only [mem_cons, not_mem_nil, or_false, not_or]
      exact ⟨hne (by omega) (by omega), hne (by omega) (by omega)⟩
    · simp only [mem_cons, not_mem_nil, or_false, not_or]
      exact ⟨hne (by omega) (by omega), hne (by omega) (by omega), hne (by omega) (by omega)⟩

theorem zero_notMem_encodeUnits (us : List UInt16) : 0 ∉ encodeUnits us := by
  rw [encodeUnits, mem_flatMap]
  rintro ⟨u, -, hu⟩
  exact zero_notMem_encodeUnit u hu

end Text

/-! ## Writing -/

namespace Buffer

def bytes16 (v : Int) : List UInt8 := [low8 (v / 256), low8 v]

/-- The bytes of a text behind its length; a text that is too long has none. -/
def textBytes (t : Text) : List UInt8 :=
  if t.modifiedUtf8.length ≤ textLimit then
    bytes16 t.modifiedUtf8.length ++ t.modifiedUtf8
  else []

theorem toNat_low8 (v : Int) : ((low8 v).toNat : Int) = v % 256 := by
  have hnonneg : (0 : Int) ≤ v % 256 := Int.emod_nonneg v (by decide)
  have hlt : v % 256 < 256 := Int.emod_lt_of_pos v (by decide)
  have h : low8 v = UInt8.ofNat (v % 256).toNat := rfl
  rw [h, UInt8.toNat_ofNat']
  omega

theorem read_bytes16 (n : Nat) :
    (low8 ((n : Int) / 256)).toNat * 256 + (low8 (n : Int)).toNat = n % 65536 := by
  have h₁ := toNat_low8 ((n : Int) / 256)
  have h₂ := toNat_low8 (n : Int)
  omega

@[simp] theorem tooLong_reserve (b : Buffer) (n : Nat) : (b.reserve n).tooLong = b.tooLong := by
  unfold reserve
  split <;> rfl

@[simp] theorem tooLong_putList (b : Buffer) (xs : List UInt8) :
    (b.putList xs).tooLong = b.tooLong := by
  simp [putList]

@[simp] theorem tooLong_putByte (b : Buffer) (v : Int) : (b.putByte v).tooLong = b.tooLong := by
  simp [putByte]

@[simp] theorem tooLong_putPair (b : Buffer) (v w : Int) :
    (b.putPair v w).tooLong = b.tooLong := by
  simp [putPair]

@[simp] theorem tooLong_putShort (b : Buffer) (v : Int) : (b.putShort v).tooLong = b.tooLong := by
  simp [putShort]

@[simp] theorem tooLong_putTagged (b : Buffer) (v w : Int) :
    (b.putTagged v w).tooLong = b.tooLong := by
  simp [putTagged]

@[simp] theorem toList_refuse (b : Buffer) (n : Nat) : (b.refuse n).toList = b.toList := by
  unfold refuse
  split <;> rfl

def Fits (b : Buffer) : Prop := b.size ≤ b.room

theorem size_le_room_reserve (b : Buffer) (n : Nat) : b.size + n ≤ (b.reserve n).room := by
  unfold reserve
  split
  next hroom => exact hroom
  · exact Nat.le_max_right _ _

theorem room_le_reserve (b : Buffer) (n : Nat) : b.room ≤ (b.reserve n).room := by
  unfold reserve
  split
  · exact Nat.le_refl _
  · exact Nat.le_trans (Nat.le_mul_of_pos_left _ Nat.two_pos) (Nat.le_max_left _ _)

theorem size_eq_length (b : Buffer) : b.size = b.toList.length := Array.length_toList.symm

theorem fits_putList (b : Buffer) (xs : List UInt8) : (b.putList xs).Fits := by
  have hroom : (b.putList xs).room = (b.reserve xs.length).room := rfl
  rw [Fits, hroom, size_eq_length, toList_putList, length_append, ← size_eq_length]
  exact size_le_room_reserve b xs.length

theorem Fits.refuse {b : Buffer} (h : b.Fits) (n : Nat) : (b.refuse n).Fits := by
  unfold Buffer.refuse
  split <;> exact h

theorem tooLong_refuse (b : Buffer) (n : Nat) : (b.refuse n).tooLong = some (b.tooLong.getD n) := by
  unfold refuse
  split
  next h => simp [h]
  next h => simp [h]

theorem putPlain_eq {b c : Buffer} {us rest : List UInt16} (h : b.putPlain us = (c, rest)) :
    c.room = b.room ∧ c.tooLong = b.tooLong ∧ ∃ front, us = front ++ rest ∧
      (encodeUnits front).length = front.length ∧ c.toList = b.toList ++ encodeUnits front := by
  induction us generalizing b with
  | nil =>
    obtain ⟨rfl, rfl⟩ := Prod.mk.inj h
    exact ⟨rfl, rfl, [], rfl, rfl, (append_nil _).symm⟩
  | cons u us ih =>
    rw [putPlain] at h
    split at h
    next hplain =>
      obtain ⟨hroom, hlong, front, rfl, hlength, hbytes⟩ := ih h
      have hencode : encodeUnits (u :: front) = u.toUInt8 :: encodeUnits front := by
        rw [encodeUnits, flatMap_cons, encodeUnit_of_isPlain hplain]
        rfl
      refine ⟨hroom, hlong, u :: front, rfl, ?_, ?_⟩
      · rw [hencode, length_cons, length_cons, hlength]
      · rw [hbytes, hencode]
        simp [toList]
    · obtain ⟨rfl, rfl⟩ := Prod.mk.inj h
      exact ⟨rfl, rfl, [], rfl, rfl, (append_nil _).symm⟩

theorem toList_setShort {b : Buffer} {before after : List UInt8} {x y : UInt8}
    (h : b.toList = before ++ x :: y :: after) (v : Int) :
    (b.setShort before.length v).toList = before ++ (bytes16 v ++ after) := by
  have hbytes : b.bytes.toList = before ++ x :: y :: after := h
  rw [setShort, toList, Array.toList_setIfInBounds, Array.toList_setIfInBounds, hbytes]
  simp [bytes16]

/-- A text of which a plain front was written. -/
structure Begun (b : Buffer) (before : List UInt8) (front : List UInt16) : Prop where
  plain : (encodeUnits front).length = front.length
  bytes : ∃ x y, b.toList = before ++ x :: y :: encodeUnits front

namespace Begun

variable {b : Buffer} {before : List UInt8} {front : List UInt16}

theorem length_eq (h : b.Begun before front) (rest : List UInt16) :
    addUnitLengths (b.bytes.size - (before.length + 2)) rest =
    (encodeUnits (front ++ rest)).length := by
  obtain ⟨x, y, hbytes⟩ := h.bytes
  have hsize : b.bytes.size = before.length + 2 + (encodeUnits front).length := by
    rw [← Array.length_toList, ← toList, hbytes]
    simp
    omega
  rw [addUnitLengths_eq, encodeUnits_append, length_append]
  omega

theorem putRest_of_le (h : b.Begun before front) {rest : List UInt16}
    (hle : (encodeUnits (front ++ rest)).length ≤ textLimit) :
    (b.putRest before.length rest).toList =
        before ++ (bytes16 (encodeUnits (front ++ rest)).length ++ encodeUnits (front ++ rest)) ∧
      (b.putRest before.length rest).tooLong = b.tooLong := by
  obtain ⟨x, y, hbytes⟩ := h.bytes
  rw [putRest, h.length_eq, if_neg (Nat.not_lt.2 hle)]
  refine ⟨?_, tooLong_putList _ _⟩
  rw [toList_putList, toList_setShort hbytes]
  simp [encodeUnits_append]

theorem putRest_of_lt (h : b.Begun before front) {rest : List UInt16}
    (hlt : textLimit < (encodeUnits (front ++ rest)).length) :
    (b.putRest before.length rest).toList = before ∧ (b.putRest before.length rest).tooLong =
      some (b.tooLong.getD (encodeUnits (front ++ rest)).length) := by
  obtain ⟨x, y, hbytes⟩ := h.bytes
  rw [putRest, h.length_eq, if_pos hlt]
  refine ⟨?_, tooLong_refuse _ _⟩
  have htake : (b.bytes.take before.length).toList = b.toList.take before.length := by simp [toList]
  rw [toList_refuse, toList, htake, hbytes, take_left]

end Begun

theorem Fits.putRest {b : Buffer} (h : b.Fits) (start : Nat) (rest : List UInt16) :
    (b.putRest start rest).Fits := by
  unfold Buffer.putRest
  dsimp only
  split
  · refine Fits.refuse ?_ _
    have htake : (b.bytes.take start).size ≤ b.bytes.size := by
      simp only [Array.take_eq_extract, Array.size_extract]
      omega
    exact Nat.le_trans htake h
  · exact fits_putList _ _

theorem putText_begun (b : Buffer) {t : Text} (h : t.units.length ≤ textLimit) :
    ∃ (c : Buffer) (front rest : List UInt16), t.units = front ++ rest ∧ c.Begun b.toList front ∧
      c.tooLong = b.tooLong ∧ c.Fits ∧
      (rest = [] → c.toList = b.toList ++ (bytes16 t.modifiedUtf8.length ++ t.modifiedUtf8)) ∧
      b.putText t = if rest = [] then c else c.putRest b.toList.length rest := by
  cases hput : ((b.reserve (2 + t.units.length)).putShort t.units.length).putPlain t.units with
  | mk c rest =>
    obtain ⟨hroom, hlong, front, hunits, hplain, hbytes⟩ := putPlain_eq hput
    have hreserve : (b.reserve (2 + t.units.length)).toList = b.toList :=
      congrArg Array.toList (bytes_reserve b _)
    rw [toList_putShort, hreserve, append_assoc] at hbytes
    refine ⟨c, front, rest, hunits, ⟨hplain, _, _, hbytes⟩, ?_, ?_, ?_, ?_⟩
    · rw [hlong, tooLong_putShort, tooLong_reserve]
    · -- a plain front takes as many bytes as it has units, and space was set aside for all units
      have hspace : b.size + (2 + t.units.length) ≤ c.room := by
        rw [hroom]
        exact Nat.le_trans (size_le_room_reserve b _) (room_le_reserve _ 2)
      have hlength : t.units.length = front.length + rest.length := by rw [hunits, length_append]
      rw [Fits, size_eq_length, hbytes]
      rw [size_eq_length] at hspace
      simp only [length_append, length_cons, length_nil]
      omega
    · rintro rfl
      rw [append_nil] at hunits
      rw [hbytes, modifiedUtf8, hunits, hplain]
      rfl
    · rw [putText, if_neg (Nat.not_lt.2 h)]
      dsimp only
      rw [hput]
      cases rest with
      | nil => rfl
      | cons u us => rw [if_neg (cons_ne_nil u us), ← size_eq_length]; rfl

theorem putText_of_le {b : Buffer} {t : Text} (h : t.modifiedUtf8.length ≤ textLimit) :
    (b.putText t).toList = b.toList ++ (bytes16 t.modifiedUtf8.length ++ t.modifiedUtf8) ∧
      (b.putText t).tooLong = b.tooLong := by
  obtain ⟨c, front, rest, hunits, hbegun, hlong, -, hplain, hput⟩ :=
    putText_begun b (Nat.le_trans (length_le_encodeUnits t.units) h)
  rw [hput]
  split
  next hrest => exact ⟨hplain hrest, hlong⟩
  next =>
    rw [modifiedUtf8, hunits] at h ⊢
    rw [← hlong]
    exact hbegun.putRest_of_le h

/-- The length that is reported of a text that is too long: the number of its units, if these are
too many already. -/
def reportedLength (t : Text) :
    Nat := if textLimit < t.units.length then t.units.length else t.modifiedUtf8.length

theorem putText_of_lt {b : Buffer} {t : Text} (h : textLimit < t.modifiedUtf8.length) :
    (b.putText t).toList = b.toList ∧ (b.putText t).tooLong =
    some (b.tooLong.getD (reportedLength t)) := by
  by_cases hmany : textLimit < t.units.length
  · rw [putText, if_pos hmany, reportedLength, if_pos hmany]
    exact ⟨toList_refuse b _, tooLong_refuse b _⟩
  · obtain ⟨c, front, rest, hunits, hbegun, hlong, -, -, hput⟩ :=
      putText_begun b (Nat.le_of_not_lt hmany)
    have hrest : rest ≠ [] := by
      -- a plain text has as many bytes as units
      rintro rfl
      rw [append_nil] at hunits
      rw [modifiedUtf8, hunits, hbegun.plain, ← hunits] at h
      exact hmany h
    rw [hput, if_neg hrest, reportedLength, if_neg hmany, ← hlong]
    rw [modifiedUtf8, hunits] at h ⊢
    exact hbegun.putRest_of_lt h

/-- A buffer that keeps its limits does so behind any text. -/
theorem Fits.putText {b : Buffer} (h : b.Fits) (t : Text) : (b.putText t).Fits := by
  by_cases hmany : textLimit < t.units.length
  · rw [Buffer.putText, if_pos hmany]
    exact h.refuse _
  · obtain ⟨c, front, rest, -, -, -, hfits, -, hput⟩ := putText_begun b (Nat.le_of_not_lt hmany)
    rw [hput]
    split
    · exact hfits
    · exact hfits.putRest _ _

@[simp] theorem toList_putText (b : Buffer) (t : Text) :
    (b.putText t).toList = b.toList ++ textBytes t := by
  rw [textBytes]
  split
  next h => exact (putText_of_le h).1
  next h => rw [(putText_of_lt (Nat.lt_of_not_le h)).1, append_nil]

theorem tooLong_putText {b : Buffer} {t : Text} (h : (b.putText t).tooLong = none) :
    b.tooLong = none ∧ t.modifiedUtf8.length ≤ textLimit := by
  have hle : t.modifiedUtf8.length ≤ textLimit := by
    refine Nat.le_of_not_lt fun hlt => ?_
    rw [(putText_of_lt hlt).2] at h
    cases h
  exact ⟨(putText_of_le hle).2 ▸ h, hle⟩

/-- Whatever stands in a buffer and however much space it has, a text is written whole or not at
all.  If its encoding can be counted in two bytes, its length and its bytes are appended; if not,
the bytes are as before and the failure is remembered unless there was one.  The bytes of units, no
matter which, contain no zero and are read as these units. -/
theorem putText_whole_or_refused (b : Buffer) (t : Text) :
    (t.modifiedUtf8.length ≤ 65535 →
      (∃ hi lo : UInt8, hi.toNat * 256 + lo.toNat = t.modifiedUtf8.length ∧
        (b.putText t).toList = b.toList ++ hi :: lo :: t.modifiedUtf8) ∧
      (b.putText t).failure? = b.failure?) ∧
    (65535 < t.modifiedUtf8.length →
      (b.putText t).toList = b.toList ∧
      (b.putText t).failure? =
        some (b.failure?.getD ⟨.textTooLong, "PutUTF8", [.int (reportedLength t)]⟩)) ∧
    (b.Fits → (b.putText t).Fits) ∧
    Format.decodeUnits t.modifiedUtf8 = some t.units ∧
    ∀ us, Format.decodeUnits (encodeUnits us) = some us ∧ 0 ∉ encodeUnits us := by
  refine ⟨fun hle => ?_, fun hlt => ?_, fun h => h.putText t, Format.decodeUnits_modifiedUtf8 t,
    fun us => ⟨Format.decodeUnits_encodeUnits us, zero_notMem_encodeUnits us⟩⟩
  · obtain ⟨hbytes, hlong⟩ := putText_of_le (b := b) hle
    refine ⟨⟨_, _, ?_, hbytes⟩, by rw [failure?, hlong, failure?]⟩
    rw [read_bytes16]
    exact Nat.mod_eq_of_lt (Nat.lt_succ_of_le hle)
  · obtain ⟨hbytes, hlong⟩ := putText_of_lt (b := b) hlt
    refine ⟨hbytes, ?_⟩
    rw [failure?, hlong, failure?]
    cases b.tooLong <;> rfl

end Buffer

end ClassAssembler
