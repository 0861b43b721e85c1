import ClassAssembler.Proofs.EncodedTexts
import ClassAssembler.TypePath
import Mathlib.Data.List.Basic

/-!
# Written type paths

The text of a type path says where each step ends: signs stand alone and the number of a type
argument runs up to its semicolon.  Reading the text of steps gives these steps
(`PathStep.readBack_path`), although the reader passes over signs that it does not know and does not
ask for the semicolon.
-/

namespace ClassAssembler

open List

inductive PathStep where
  | arrayElement
  | innerType
  | wildcard
  | typeArgument (index : UInt8)
deriving DecidableEq, Repr

/-! ## Decimal numbers -/

namespace Text

theorem toNat_digit {n : Nat} {c : Char} (h : c ∈ Nat.toDigits 10 n) :
    48 ≤ c.toNat ∧ c.toNat ≤ 57 :=
  Char.isDigit_iff_toNat.1 (Nat.isDigit_of_mem_toDigits (by decide) (by decide) h)

theorem ofNat_eq_map (n : Nat) :
    ofNat n = (Nat.toDigits 10 n).map fun c => UInt8.ofNat c.toNat := by
  have hplain (c : Char) (hc : c ∈ Nat.toDigits 10 n) : String.utf8EncodeChar c =
      [UInt8.ofNat c.toNat] := by
    have hle : c.val.toNat ≤ 127 := Nat.le_trans (toNat_digit hc).2 (by decide)
    rw [String.utf8EncodeChar]
    exact if_pos hle
  have hbytes : ofNat n = (Nat.toDigits 10 n).flatMap String.utf8EncodeChar := by
    simp [ofNat, ofString, Nat.toString_eq_repr, Nat.repr_eq_ofList_toDigits, utf8Encode]
  rw [hbytes, map_eq_flatMap, flatMap_def, flatMap_def, map_congr_left hplain]

end Text

namespace TypePath

open Text in
theorem isDigit_of_mem_ofNat {n : Nat} {b : UInt8} (h : b ∈ ofNat n) : isDigit b := by
  rw [ofNat_eq_map] at h
  obtain ⟨c, hc, rfl⟩ := mem_map.1 h
  obtain ⟨hlow, hhigh⟩ := toNat_digit hc
  have hbyte : (UInt8.ofNat c.toNat).toNat = c.toNat := Format.toNat_ofNat_byte (by omega)
  simp only [isDigit, Bool.and_eq_true, decide_eq_true_eq, UInt8.le_iff_toNat_le, hbyte]
  exact ⟨hlow, hhigh⟩

open Text in
theorem number_ofNat {n : Nat} (h : n ≤ largestNumber) : number (ofNat n) = n := by
  have hvalue : (ofNat n).foldl (fun n b => 10 * n + (b.toNat - 48)) 0 =
      Nat.ofDigitChars 10 (Nat.toDigits 10 n) 0 := by
    rw [ofNat_eq_map, foldl_map, Nat.ofDigitChars]
    refine foldl_ext _ _ _ fun m c hc => ?_
    rw [Format.toNat_ofNat_byte (by have := toNat_digit hc; omega)]
    rfl
  rw [number, hvalue, Nat.ofDigitChars_toDigits (by decide) (by decide), Nat.min_eq_right h]

theorem ofNat_ne_nil (n : Nat) : Text.ofNat n ≠ [] := by
  simp [Text.ofNat_eq_map, Nat.toDigits_ne_nil]

/-! ## Reading -/

theorem ofUInt8_ne_of_isDigit {b : UInt8} (h : isDigit b) :
    Char.ofUInt8 b ≠ '[' ∧ Char.ofUInt8 b ≠ '.' ∧ Char.ofUInt8 b ≠ '*' := by
  obtain ⟨hlow, hhigh⟩ : 48 ≤ b.toNat ∧ b.toNat ≤ 57 := by
    simpa [isDigit, UInt8.le_iff_toNat_le] using h
  have hne {c : Char} (hc : c.toNat < 48 ∨ 57 < c.toNat) : Char.ofUInt8 b ≠ c := by
    rintro rfl
    have hcode : (Char.ofUInt8 b).toNat = b.toNat := rfl
    omega
  exact ⟨hne (by decide), hne (by decide), hne (by decide)⟩

theorem steps_digits {digits : Text} (hne : digits ≠ []) (hdigits : ∀ b ∈ digits, isDigit b)
    (rest : Text) :
    steps (digits ++ 59 :: rest) = typeArgument (UInt8.ofNat (number digits)) :: steps rest := by
  obtain ⟨b, more, rfl⟩ := exists_cons_of_ne_nil hne
  obtain ⟨hb, hmore⟩ := forall_mem_cons.1 hdigits
  obtain ⟨harray, hinner, hwild⟩ := ofUInt8_ne_of_isDigit hb
  -- the digits end at the semicolon, which is none
  have htake : (more ++ 59 :: rest).takeWhile isDigit = more := by
    rw [takeWhile_append_of_pos hmore]
    simp [isDigit]
  have hdrop : (more ++ 59 :: rest).dropWhile isDigit = 59 :: rest := by
    rw [dropWhile_append_of_pos hmore]
    simp [isDigit]
  rw [cons_append, steps]
  split
  next h => exact absurd h harray
  next h => exact absurd h hinner
  next h => exact absurd h hwild
  next =>
    rw [if_pos hb, htake]
    dsimp only
    split
    next hnil => cases hdrop.symm.trans hnil
    next c after hcons =>
      obtain ⟨rfl, rfl⟩ := List.cons.inj (hdrop.symm.trans hcons)
      exact if_pos rfl

end TypePath

namespace PathStep

/-- The two bytes of a step: its kind and, for a type argument, which one. -/
def bytes : PathStep → List UInt8
  | arrayElement => [0, 0]
  | innerType => [1, 0]
  | wildcard => [2, 0]
  | typeArgument index => [3, index]

def step : PathStep → TypeStep
  | arrayElement => TypePath.arrayElement
  | innerType => TypePath.innerType
  | wildcard => TypePath.wildcard
  | typeArgument index => TypePath.typeArgument index

def path (p : List PathStep) : TypePath := p.map step

theorem stepText_ne_nil (s : PathStep) : TypePath.stepText s.step ≠ [] := by
  cases s with
  | typeArgument index => exact append_ne_nil_of_right_ne_nil _ (cons_ne_nil _ _)
  | _ => exact cons_ne_nil _ _

theorem steps_stepText (s : PathStep) (rest : Text) :
    TypePath.steps (TypePath.stepText s.step ++ rest) = s.step :: TypePath.steps rest := by
  cases s with
  | arrayElement => exact TypePath.steps.eq_2 91 rest
  | innerType => exact TypePath.steps.eq_2 46 rest
  | wildcard => exact TypePath.steps.eq_2 42 rest
  | typeArgument index =>
    have hindex : index.toNat ≤ TypePath.largestNumber :=
      Nat.le_trans (Nat.le_of_lt index.toNat_lt) (by decide)
    have htext : TypePath.stepText (step (typeArgument index)) = Text.ofNat index.toNat ++ [59] :=
      rfl
    rw [htext, append_assoc, singleton_append,
      TypePath.steps_digits (TypePath.ofNat_ne_nil _) (fun _ => TypePath.isDigit_of_mem_ofNat),
      TypePath.number_ofNat hindex, UInt8.ofNat_toNat]
    rfl

theorem steps_toText (p : List PathStep) : TypePath.steps (path p).toText = path p := by
  induction p with
  | nil => exact TypePath.steps.eq_1
  | cons s p ih =>
    have hsplit : (path (s :: p)).toText = TypePath.stepText s.step ++ (path p).toText :=
      flatMap_cons
    rw [hsplit, steps_stepText, ih]
    rfl

theorem stepBytes_path (p : List PathStep) : (path p).stepBytes = p.flatMap bytes := by
  rw [path, TypePath.stepBytes, flatMap_map]
  refine flatMap_congr fun s _ => ?_
  cases s <;> rfl

/-- Reading the text of one or more steps gives these steps.  Behind whatever stands in a buffer, a
path of fewer than 256 steps is written as their number in one byte and the two bytes of
every step. -/
theorem readBack_path {p : List PathStep} (hp : p ≠ []) (out : Buffer) :
    TypePath.ofText? (path p).toText = some (path p) ∧
      (p.length < 256 → ∃ count : UInt8, count.toNat = p.length ∧
        (TypePath.put (some (path p)) out).toList = out.toList ++ count :: p.flatMap bytes) := by
  refine ⟨?_, fun hlength => ⟨Buffer.low8 p.length, ?_, ?_⟩⟩
  · obtain ⟨s, more, rfl⟩ := exists_cons_of_ne_nil hp
    have htext : (path (s :: more)).toText ≠ [] :=
      append_ne_nil_of_left_ne_nil (stepText_ne_nil s) _
    rw [TypePath.ofText?, if_neg (by simpa using htext), steps_toText]
  · have hcount := Buffer.toNat_low8 p.length
    omega
  · have hlength : (path p).length = p.length := length_map step
    rw [TypePath.put, Buffer.toList_putList, Buffer.toList_putByte, stepBytes_path, hlength]
    simp

theorem readBack_path_mixed :
    TypePath.ofText? (path [typeArgument 10, typeArgument 2, arrayElement, wildcard,
      innerType]).toText =
        some (path [typeArgument 10, typeArgument 2, arrayElement, wildcard, innerType]) ∧
      ∃ count : UInt8, count.toNat = 5 ∧
        (TypePath.put (some (path [typeArgument 10, typeArgument 2, arrayElement, wildcard,
          innerType])) {}).toList = count :: [3, 10, 3, 2, 0, 0, 2, 0, 1, 0] := by
  obtain ⟨hread, hput⟩ := readBack_path
    (p := [typeArgument 10, typeArgument 2, arrayElement, wildcard, innerType]) (cons_ne_nil _ _) {}
  exact ⟨hread, hput (by decide)⟩

end PathStep

end ClassAssembler
