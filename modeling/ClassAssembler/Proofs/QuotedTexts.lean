import ClassAssembler.Toml.Basic
import Mathlib

/-!
# Quoted texts in TOML

A quoted text shows what cannot be printed by escapes.  TOML knows some of these escapes only:
those of a bell, a vertical tab and of bytes given by two digits are unknown to it.  So a quoted
text can be read exactly if none of its characters needs such an escape, and then it is read as
the text itself.  The proof goes character by character, with what follows left open.
-/

namespace ClassAssembler

open List

namespace Text

/-! ## Characters as bytes -/

theorem isScalar_iff {c : Nat} : isScalar c ↔ c < 0xD800 ∨ 0xDFFF < c ∧ c ≤ 0x10FFFF := by
  simp [isScalar]

theorem not_replaced {c : Nat} (h : isScalar c) : ¬ (c > 0x10FFFF ∨ 0xD800 ≤ c ∧ c ≤ 0xDFFF) := by
  rw [isScalar_iff] at h
  omega

theorem toNat_secondRange {a b : UInt8} (h : (secondRange a).1 ≤ b ∧ b ≤ (secondRange a).2) :
    0x80 ≤ b.toNat ∧ b.toNat ≤ 0xBF ∧ (a.toNat = 0xE0 → 0xA0 ≤ b.toNat) ∧
    (a.toNat = 0xED → b.toNat ≤ 0x9F) ∧
      (a.toNat = 0xF0 → 0x90 ≤ b.toNat) ∧ (a.toNat = 0xF4 → b.toNat ≤ 0x8F) := by
  unfold secondRange at h
  simp only [← UInt8.toNat_inj, UInt8.reduceToNat] at h
  repeat' split at h
  all_goals
    simp only [UInt8.le_iff_toNat_le, UInt8.reduceToNat] at h
    omega

theorem toNat_isTail {b : UInt8} (h : isTail b) : 0x80 ≤ b.toNat ∧ b.toNat ≤ 0xBF := by
  simpa [isTail, UInt8.le_iff_toNat_le] using h

/-- A character that is read is written with the bytes that were read, and these are read so
whatever follows. -/
theorem lead?_eq_some {a : UInt8} {t : Text} {c n : Nat} (h : lead? a t = some (c, n)) :
    isScalar c ∧ ∃ x r, t = x ++ r ∧ n = x.length ∧ encode c = a :: x ∧ ∀ r, lead? a (x ++ r) =
    some (c, x.length) := by
  have hbyte {m : Nat} {b : UInt8} (hm : m = b.toNat) : UInt8.ofNat m =
    b := by rw [hm, UInt8.ofNat_toNat]
  unfold lead? at h
  split at h
  next hone =>
    obtain ⟨rfl, rfl⟩ := Prod.mk.inj (Option.some.inj h)
    have hlt : a.toNat < 0x80 := hone
    have hs : isScalar a.toNat := isScalar_iff.2 (by omega)
    refine ⟨hs, [], t, rfl, rfl, ?_, fun r => by simp [lead?, hone]⟩
    simp only [encode, if_neg (not_replaced hs), if_pos hlt, UInt8.ofNat_toNat]
  next hone =>
  split at h
  next htwo =>
    match t, h with
    | b :: t, h =>
    obtain ⟨hb, h⟩ := Option.ite_none_right_eq_some.1 h
    obtain ⟨hc, rfl⟩ := Prod.mk.inj (Option.some.inj h)
    have hb' := toNat_isTail hb
    have ha : 0xC2 ≤ a.toNat ∧ a.toNat ≤ 0xDF := htwo
    unfold low6 at hc
    have hs : isScalar c := isScalar_iff.2 (by omega)
    refine ⟨hs, [b], t, rfl, rfl, ?_, fun r => by simp [lead?, hone, htwo, hb, hc, low6]⟩
    simp only [encode, if_neg (not_replaced hs)]
    rw [if_neg (by omega), if_pos (by omega), hbyte (b := a) (by omega), hbyte (b := b) (by omega)]
  next htwo =>
  split at h
  next hthree =>
    match t, h with
    | b :: d :: t, h =>
    obtain ⟨⟨hb, hb', hd⟩, h⟩ := Option.ite_none_right_eq_some.1 h
    obtain ⟨hc, rfl⟩ := Prod.mk.inj (Option.some.inj h)
    have hbs := toNat_secondRange ⟨hb, hb'⟩
    have hds := toNat_isTail hd
    have ha : 0xE0 ≤ a.toNat ∧ a.toNat ≤ 0xEF := hthree
    unfold low6 at hc
    have hs : isScalar c := isScalar_iff.2 (by omega)
    refine ⟨hs, [b, d], t, rfl, rfl, ?_,
      fun r => by simp [lead?, hone, htwo, hthree, hb, hb', hd, hc, low6]⟩
    simp only [encode, if_neg (not_replaced hs)]
    rw [if_neg (by omega), if_neg (by omega), if_pos (by omega), hbyte (b := a) (by omega),
      hbyte (b := b) (by omega), hbyte (b := d) (by omega)]
  next hthree =>
  obtain ⟨hfour, h⟩ := Option.ite_none_right_eq_some.1 h
  match t, h with
  | b :: d :: e :: t, h =>
  obtain ⟨⟨hb, hb', hd, he⟩, h⟩ := Option.ite_none_right_eq_some.1 h
  obtain ⟨hc, rfl⟩ := Prod.mk.inj (Option.some.inj h)
  have hbs := toNat_secondRange ⟨hb, hb'⟩
  have hds := toNat_isTail hd
  have hes := toNat_isTail he
  have ha : 0xF0 ≤ a.toNat ∧ a.toNat ≤ 0xF4 := hfour
  unfold low6 at hc
  have hs : isScalar c := isScalar_iff.2 (by omega)
  refine ⟨hs, [b, d, e], t, rfl, rfl, ?_,
    fun r => by simp [lead?, hone, htwo, hthree, hfour, hb, hb', hd, he, hc, low6]⟩
  simp only [encode, if_neg (not_replaced hs)]
  rw [if_neg (by omega), if_neg (by omega), if_neg (by omega), hbyte (b := a) (by omega),
    hbyte (b := b) (by omega), hbyte (b := d) (by omega), hbyte (b := e) (by omega)]

/-! ## Hexadecimal numbers -/

def hexByte (d : Nat) : UInt8 := UInt8.ofNat d.digitChar.toNat

theorem hexDigit?_hexByte : ∀ d < 16, hexDigit? (hexByte d) = some d := by decide

theorem utf8EncodeChar_digitChar :
    ∀ d < 16, String.utf8EncodeChar d.digitChar = [hexByte d] := by decide

theorem exists_toDigits (n : Nat) : ∃ ds :
    List Nat, (∀ d ∈ ds, d < 16) ∧ Nat.toDigits 16 n = ds.map Nat.digitChar ∧
    ds.foldl (fun v d => v * 16 + d) 0 = n := by
  induction n using Nat.strongRecOn with
  | _ n ih =>
    rw [Nat.toDigits_eq_if (by decide)]
    split
    next h => exact ⟨[n], by simpa using h, rfl, by simp⟩
    next h =>
      obtain ⟨ds, hds, hdigits, hvalue⟩ := ih (n / 16) (by omega)
      have hlast : n % 16 < 16 := Nat.mod_lt n (by decide)
      refine ⟨ds ++ [n % 16], forall_mem_append.2 ⟨hds, by simpa using hlast⟩,
        by rw [hdigits, map_append, map_singleton], ?_⟩
      rw [foldl_append, hvalue]
      exact Nat.div_add_mod' n 16

/-- The digits of a number that has enough space. -/
theorem exists_hex {w n : Nat} (hw : 0 < w) (hn : n < 16 ^ w) : ∃ ds :
    List Nat, ds.length = w ∧ (∀ d ∈ ds, d < 16) ∧ hex w n = ds.map hexByte ∧
    ds.foldl (fun v d => v * 16 + d) 0 = n := by
  obtain ⟨ds, hds, hdigits, hvalue⟩ := exists_toDigits n
  have hlength : ds.length ≤ w := by
    have h := (Nat.length_toDigits_le_iff (by decide) hw).2 hn
    rwa [hdigits, length_map] at h
  have hbytes : ofString (String.ofList (Nat.toDigits 16 n)) = ds.map hexByte := by
    have hflat : ofString (String.ofList (Nat.toDigits 16 n)) =
        (Nat.toDigits 16 n).flatMap String.utf8EncodeChar := by
      simp [ofString, utf8Encode]
    rw [hflat, hdigits, flatMap_map, map_eq_flatMap, flatMap_def, flatMap_def,
      map_congr_left fun d hd => utf8EncodeChar_digitChar d (hds d hd)]
  refine ⟨replicate (w - ds.length) 0 ++ ds, ?_, forall_mem_append.2 ⟨by simp, hds⟩, ?_, ?_⟩
  · simp [hlength]
  · simp only [hex, hbytes, map_append, map_replicate, length_map]
    rfl
  · rw [foldl_append, show (replicate (w - ds.length) 0).foldl (fun v d => v * 16 + d) 0 =
      0 from ?_, hvalue]
    induction w - ds.length with
    | zero => rfl
    | succ n ih => exact ih

theorem hexDigits?_map {ds : List Nat} (hds : ∀ d ∈ ds, d < 16) (r : Text) (v : Nat) :
    hexDigits? ds.length (ds.map hexByte ++ r) v = some (ds.foldl (fun v d => v * 16 + d) v) := by
  induction ds generalizing v with
  | nil => rfl
  | cons d ds ih =>
    obtain ⟨hd, hds⟩ := forall_mem_cons.1 hds
    rw [map_cons, cons_append, length_cons, hexDigits?, hexDigit?_hexByte d hd]
    exact ih hds _

theorem numbered?_hex {w c : Nat} (hw : 0 < w) (hc : c < 16 ^ w) (hs : isScalar c) (r : Text) :
    numbered? w (hex w c ++ r) = some (encode c, w + 1) := by
  obtain ⟨ds, rfl, hds, hhex, hvalue⟩ := exists_hex hw hc
  rw [numbered?, hhex, hexDigits?_map hds, hvalue]
  simp [hs]

theorem length_hex {w n : Nat} (hw : 0 < w) (hn : n < 16 ^ w) : (hex w n).length = w := by
  obtain ⟨ds, rfl, -, hhex, -⟩ := exists_hex hw hn
  rw [hhex, length_map]

/-! ## Well-formed texts -/

theorem isWellFormed_cons {a : UInt8} {t : Text} {c n : Nat} (h : lead? a t = some (c, n)) :
    isWellFormed (a :: t) = isWellFormed (t.drop n) := by
  rw [isWellFormed, h]

theorem isWellFormed_append {s : Text} (h : s.isWellFormed) (r : Text) :
    isWellFormed (s ++ r) = r.isWellFormed := by
  fun_induction isWellFormed s with
  | case1 => rfl
  | case2 a t c n hlead ih =>
    obtain ⟨-, x, r', rfl, rfl, -, hagain⟩ := lead?_eq_some hlead
    rw [drop_left] at ih h
    rw [cons_append, append_assoc, isWellFormed_cons (hagain _), drop_left, ih h]
  | case3 => cases h

theorem isWellFormed_of_ascii {t : Text} (h : ∀ b ∈ t, b < 0x80) : t.isWellFormed := by
  induction t with
  | nil => simp [isWellFormed]
  | cons b t ih =>
    obtain ⟨hb, ht⟩ := forall_mem_cons.1 h
    rw [isWellFormed_cons (if_pos hb)]
    exact ih ht

theorem isWellFormed_encode {a : UInt8} {t : Text} {c n : Nat} (h : lead? a t = some (c, n)) :
    (encode c).isWellFormed := by
  obtain ⟨-, x, -, -, -, henc, hagain⟩ := lead?_eq_some h
  have hself := hagain []
  rw [append_nil] at hself
  rw [henc, isWellFormed_cons hself, drop_length]
  simp [isWellFormed]

theorem hex_ascii {w n : Nat} (hw : 0 < w) (hn : n < 16 ^ w) : ∀ b ∈ hex w n, b < 0x80 := by
  have hdigit : ∀ d < 16, hexByte d < 0x80 := by decide
  obtain ⟨ds, -, hds, hhex, -⟩ := exists_hex hw hn
  intro b hb
  rw [hhex] at hb
  obtain ⟨d, hd, rfl⟩ := mem_map.1 hb
  exact hdigit d (hds d hd)

theorem isWellFormed_escaped {t : Text} (h : ∀ b ∈ t, b < 0x80) (b : UInt8) (hb : b < 0x80) :
    isWellFormed (92 :: b :: t) :=
  isWellFormed_of_ascii (forall_mem_cons.2 ⟨by decide, forall_mem_cons.2 ⟨hb, h⟩⟩)

theorem isWellFormed_escapeCode {c : Nat} (hs : isScalar c) (hc : (encode c).isWellFormed) :
    (escapeCode 34 c).isWellFormed := by
  have hcode := isScalar_iff.1 hs
  unfold escapeCode
  repeat' split
  · exact (isWellFormed_append (s := [92]) (by decide +kernel) _).trans hc
  · exact hc
  next b hletter =>
    unfold controlLetter? at hletter
    split at hletter <;> cases hletter <;> decide +kernel
  next h => exact isWellFormed_escaped (hex_ascii (w := 2) (by decide) (by omega)) 120 (by decide)
  next h => exact isWellFormed_escaped (hex_ascii (w := 4) (by decide) h) 117 (by decide)
  next h => exact isWellFormed_escaped (hex_ascii (w := 8) (by decide) (by omega)) 85 (by decide)

theorem isWellFormed_quoted (t : Text) : t.quoted.isWellFormed := by
  have hpieces : isWellFormed (t.pieces.flatMap (escapePiece 34)) := by
    fun_induction pieces t with
    | case1 => simp [isWellFormed]
    | case2 a t c n hlead ih =>
      have hcode := isWellFormed_escapeCode (lead?_eq_some hlead).1 (isWellFormed_encode hlead)
      rw [flatMap_cons]
      exact (isWellFormed_append hcode _).trans ih
    | case3 a t hlead ih =>
      have hcode := isWellFormed_escaped (hex_ascii (w := 2) (by decide) a.toNat_lt) 120 (by decide)
      rw [flatMap_cons]
      exact (isWellFormed_append hcode _).trans ih
  rw [quoted, append_assoc, isWellFormed_append (by decide +kernel), isWellFormed_append hpieces]
  decide +kernel

/-! ## Escapes -/

/-- Whether TOML knows how a character is written in quotes: only some control characters are a
problem. -/
def isShared (c : Nat) : Bool := (0x20 ≤ c && c != 0x7F) || (8 ≤ c && c ≤ 13 && c != 11)

def Piece.isShared : Piece → Bool
  | .scalar c => Text.isShared c
  | .stray _ => false

/-- Whether a text is UTF-8 and TOML knows how each of its characters is written. -/
def isSaveable (t : Text) : Bool := t.pieces.all Piece.isShared

theorem ne_of_isPrintable {c : Nat} (h : isPrintable c) : 0x20 ≤ c ∧ c ≠ 0x7F := by
  refine ⟨?_, ?_⟩
  · simp [isPrintable] at h
    exact h.1
  · rintro rfl
    revert h
    decide +kernel

end Text

namespace Toml

open Text

theorem basic?_plain {bs : Text} (h : ∀ b ∈ bs, isPlain b ∧ b ≠ 34 ∧ b ≠ 92) (r acc : Text) :
    basic? (bs ++ r) acc = basic? r (bs.reverse ++ acc) := by
  induction bs generalizing acc with
  | nil => rfl
  | cons b bs ih =>
    obtain ⟨hplain, hquote, hescape⟩ := h b mem_cons_self
    rw [cons_append, basic?, if_neg hquote, if_neg hescape, if_pos hplain,
      ih fun b hb => h b (mem_cons_of_mem _ hb)]
    simp

theorem isPlain_of_mem_encode {c : Nat} (hs : isScalar c) (hc : 0x20 ≤ c)
    (hne : c ≠ 0x7F ∧ c ≠ 34 ∧ c ≠ 92) {b : UInt8} (hb : b ∈ encode c) :
    isPlain b ∧ b ≠ 34 ∧ b ≠ 92 := by
  have hcode := isScalar_iff.1 hs
  have hbyte : b.toNat = c ∨ 0x80 ≤ b.toNat := by
    simp only [encode, if_neg (not_replaced hs)] at hb
    repeat' split at hb
    all_goals
      simp only [mem_cons, not_mem_nil, or_false] at hb
      obtain rfl | rfl | rfl | rfl := hb <;> simp only [UInt8.toNat_ofNat'] <;> omega
  simp only [isPlain, Bool.or_eq_true, Bool.and_eq_true, decide_eq_true_eq, bne_iff_ne, beq_iff_eq,
    ne_eq, UInt8.le_iff_toNat_le, ← UInt8.toNat_inj, UInt8.reduceToNat]
  omega

theorem exists_escapeCode {c : Nat} {a : UInt8} {x : Text} (hs : isScalar c)
    (henc : encode c = a :: x) : ∃ b y, escapeCode 34 c = b :: y ∧ b ≠ 34 := by
  unfold escapeCode
  repeat' split
  next => exact ⟨92, encode c, rfl, by decide⟩
  next hquote h =>
    obtain ⟨hlow, hdelete⟩ := ne_of_isPrintable h
    exact ⟨a, x, henc, (isPlain_of_mem_encode hs hlow (by omega) (henc ▸ mem_cons_self)).2.1⟩
  all_goals exact ⟨92, _, rfl, by decide⟩

theorem basic?_escaped {e bytes r : Text} {n : Nat} (h : escaped? (e ++ r) = some (bytes, n))
    (hn : e.length = n) (acc : Text) :
    basic? (92 :: e ++ r) acc = basic? r (bytes.reverse ++ acc) := by
  rw [cons_append, basic?, if_neg (by decide), if_pos rfl, h]
  dsimp only
  rw [← hn, drop_left]

theorem basic?_unknown {e r : Text} (h : escaped? (e ++ r) = none) (acc : Text) :
    basic? (92 :: e ++ r) acc = none := by
  rw [cons_append, basic?, if_neg (by decide), if_pos rfl, h]

theorem basic?_escapeCode {c : Nat} (hs : isScalar c) (r acc : Text) :
    basic? (escapeCode 34 c ++ r) acc = if isShared c then basic? r ((encode c).reverse ++ acc)
    else none := by
  have hcode := isScalar_iff.1 hs
  unfold escapeCode
  split
  next h =>
    obtain rfl | rfl := h <;> exact basic?_escaped (e := encode _) rfl rfl acc
  next hquote =>
  split
  next h =>
    obtain ⟨hlow, hdelete⟩ := ne_of_isPrintable h
    rw [basic?_plain fun b hb => isPlain_of_mem_encode hs hlow (by omega) hb,
      if_pos (by simp [isShared]; omega)]
  next =>
  split
  next b hletter =>
    unfold controlLetter? at hletter
    split at hletter <;> cases hletter
    · exact basic?_unknown (e := [97]) rfl acc
    · exact basic?_escaped (e := [98]) rfl rfl acc
    · exact basic?_escaped (e := [116]) rfl rfl acc
    · exact basic?_escaped (e := [110]) rfl rfl acc
    · exact basic?_unknown (e := [118]) rfl acc
    · exact basic?_escaped (e := [102]) rfl rfl acc
    · exact basic?_escaped (e := [114]) rfl rfl acc
  next hletter =>
  have hcontrol : ¬ (7 ≤ c ∧ c ≤ 13) := by
    intro h
    obtain rfl | rfl | rfl | rfl | rfl | rfl | rfl :
      c = 7 ∨ c = 8 ∨ c = 9 ∨ c = 10 ∨ c = 11 ∨ c = 12 ∨ c = 13 := by omega
    all_goals cases hletter
  split
  next h =>
    rw [if_neg (by simp [isShared]; omega)]
    exact basic?_unknown (e := 120 :: hex 2 c) rfl acc
  next hlow =>
  have hshared : isShared c := by
    simp [isShared]
    omega
  refine Eq.trans ?_ (if_pos hshared).symm
  split
  next hshort =>
    exact basic?_escaped (e := 117 :: hex 4 c) (numbered?_hex (by decide) hshort hs r)
      (congrArg (· + 1) (length_hex (by decide) hshort)) acc
  next =>
    have hlong : c < 16 ^ 8 := by omega
    exact basic?_escaped (e := 85 :: hex 8 c) (numbered?_hex (by decide) hlong hs r)
      (congrArg (· + 1) (length_hex (by decide) hlong)) acc

/-- A quoted text is read as itself if all its escapes are known, and not at all if not. -/
theorem basic?_quoted (t r acc : Text) :
    basic? (t.pieces.flatMap (escapePiece 34) ++ 34 :: r) acc =
      if t.isSaveable then some (acc.reverse ++ t, r) else none := by
  unfold isSaveable
  fun_induction pieces t generalizing acc with
  | case1 => simp [basic?]
  | case2 a t c n hlead ih =>
    obtain ⟨hs, x, r', rfl, rfl, henc, -⟩ := lead?_eq_some hlead
    rw [flatMap_cons, append_assoc, escapePiece, basic?_escapeCode hs, ih, all_cons, Piece.isShared,
      drop_left, henc]
    cases isShared c with
    | false => simp
    | true => simp
  | case3 a t hlead ih =>
    rw [flatMap_cons, append_assoc]
    exact basic?_unknown (e := 120 :: hex 2 a.toNat) rfl acc

end Toml

end ClassAssembler
