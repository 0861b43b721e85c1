import ClassAssembler.Proofs.FrameItems

/-!
# Reading stack maps back

The bytes of a frame say what the frame is, given the local variables of the one before it
(`TableFrame.Spells`).  A stack map that is drawn up frame by frame is read as these frames
(`TableFrame.Drawn.run`): in full before version fifty, and as differences from then on.
-/

namespace ClassAssembler

open Buffer MapItem List

@[simp] theorem Checked.ok_bind {α β : Type} (a : α) (f : α → Checked β) :
    (Except.ok a >>= f) = f a := rfl

@[simp] theorem Checked.pure_eq {α : Type} (a : α) : (pure a : Checked α) = .ok a := rfl

namespace TableFrame

variable {p q : Pool} {is ls ss : List MapItem} {xs ys before : List (FrameItem Int)}

/-! ## Lists of types -/

theorem run_items (h : List.Forall₂ (Stands p) is xs) (rest : List UInt8) :
    (items p is.length).run (is.flatMap bytes ++ rest) = .ok (xs, rest) := by
  induction h with
  | nil => rfl
  | @cons i x is xs hx _ ih => simp [items, hx.run_item, ih]

theorem run_countedItems (h : List.Forall₂ (Stands p) is xs) (hn : xs.length ≤ 65535)
    (rest : List UInt8) : (countedItems p).run (counted is ++ rest) = .ok (xs, rest) := by
  have hlength := h.length_eq
  simp [countedItems, counted, run_short (v := is.length) (by omega) (by omega), run_items h]

theorem run_full {offset : Int} (hlow : 0 ≤ offset) (hhigh : offset ≤ 65535)
    (hls : List.Forall₂ (Stands p) ls xs) (hss : List.Forall₂ (Stands p) ss ys)
    (hxs : xs.length ≤ 65535) (hys : ys.length ≤ 65535) (rest : List UInt8) :
    (full p).run (bytes16 offset ++ (counted ls ++ counted ss) ++ rest) =
      .ok (⟨offset, xs, ys⟩, rest) := by
  simp [full, run_short hlow hhigh, run_countedItems hls hxs, run_countedItems hss hys,
    Int.toNat_of_nonneg hlow]

/-! ## Differences -/

/-- The bytes of a frame that is written as a difference; its offset is its distance. -/
inductive Spells (p : Pool) (before : List (FrameItem Int)) : List UInt8 → TableFrame → Prop
  | same {d : Int} : 0 ≤ d → d < 64 → Spells p before [low8 d] ⟨d, before, []⟩
  | sameFar {d : Int} : 0 ≤ d → d ≤ 65535 → Spells p before (low8 251 :: bytes16 d) ⟨d, before, []⟩
  | sameWith {d : Int} {i : MapItem} {x : FrameItem Int} : 0 ≤ d → d < 64 → i.Stands p x →
      Spells p before (low8 (64 + d) :: i.bytes) ⟨d, before, [x]⟩
  | sameFarWith {d : Int} {i : MapItem} {x : FrameItem Int} : 0 ≤ d → d ≤ 65535 → i.Stands p x →
      Spells p before (low8 247 :: (bytes16 d ++ i.bytes)) ⟨d, before, [x]⟩
  | chopped {d : Int} {n : Nat} : 0 ≤ d → d ≤ 65535 → 1 ≤ n → n ≤ 3 → n ≤ before.length →
      Spells p before (low8 (251 - n) :: bytes16 d) ⟨d, before.take (before.length - n), []⟩
  | appended {d : Int} {is : List MapItem} {xs : List (FrameItem Int)} : 0 ≤ d → d ≤ 65535 →
      is.length ≤ 3 → List.Forall₂ (Stands p) is xs →
      Spells p before (low8 (251 + is.length) :: (bytes16 d ++ is.flatMap bytes)) ⟨d, before ++ xs,
        []⟩
  | full {d : Int} {ls ss : List MapItem} {xs ys : List (FrameItem Int)} : 0 ≤ d → d ≤ 65535 →
      List.Forall₂ (Stands p) ls xs → List.Forall₂ (Stands p) ss ys → xs.length ≤ 65535 →
      ys.length ≤ 65535 →
      Spells p before (low8 255 :: (bytes16 d ++ (counted ls ++ counted ss))) ⟨d, xs, ys⟩

theorem Spells.mono (h : p.Extends q) {row : List UInt8} {f : TableFrame}
    (hf : Spells p before row f) : Spells q before row f := by
  have hall {is : List MapItem} {xs : List (FrameItem Int)} (hxs : List.Forall₂ (Stands p) is xs) :
      List.Forall₂ (Stands q) is xs := hxs.imp fun _ _ hx => hx.mono h
  cases hf with
  | same hlow hhigh => exact .same hlow hhigh
  | sameFar hlow hhigh => exact .sameFar hlow hhigh
  | sameWith hlow hhigh hx => exact .sameWith hlow hhigh (hx.mono h)
  | sameFarWith hlow hhigh hx => exact .sameFarWith hlow hhigh (hx.mono h)
  | chopped hlow hhigh hone hthree hle => exact .chopped hlow hhigh hone hthree hle
  | appended hlow hhigh hthree hxs => exact .appended hlow hhigh hthree (hall hxs)
  | full hlow hhigh hxs hys hn hm => exact .full hlow hhigh (hall hxs) (hall hys) hn hm

theorem run_byte (b : UInt8) (rest : List UInt8) : byte.run (b :: rest) = .ok (b.toNat, rest) := rfl

theorem toNat_tag {n : Int} (hlow : 0 ≤ n) (hhigh : n < 256) : ((low8 n).toNat : Int) = n := by
  rw [Buffer.toNat_low8]
  omega

/-- The reader takes the bytes of one difference and leaves what is behind them. -/
theorem Spells.run {row : List UInt8} {f : TableFrame} (h : Spells p before row f)
    (rest : List UInt8) : (difference p before).run (row ++ rest) = .ok (f, rest) := by
  cases h with
  | @same d hlow hhigh =>
    have htag := toNat_tag hlow (by omega)
    have hlt : (low8 d).toNat < 64 := by omega
    simp [difference, run_byte, hlt, htag]
  | @sameFar d hlow hhigh =>
    have htag : (low8 251).toNat = 251 := rfl
    simp [difference, run_byte, htag, run_short hlow hhigh, items, Int.toNat_of_nonneg hlow]
  | @sameWith d i x hlow hhigh hx =>
    have htag := toNat_tag (n := 64 + d) (by omega) (by omega)
    have hge : ¬ (low8 (64 + d)).toNat < 64 := by omega
    have hlt : (low8 (64 + d)).toNat < 128 := by omega
    simp [difference, run_byte, hge, hlt, htag, items, hx.run_item]
  | @sameFarWith d i x hlow hhigh hx =>
    have htag : (low8 247).toNat = 247 := rfl
    simp [difference, run_byte, htag, run_short hlow hhigh, items, hx.run_item,
      Int.toNat_of_nonneg hlow]
  | @chopped d n hlow hhigh hone hthree hle =>
    have htag : (low8 (251 - n)).toNat = 251 - n := by
      have := toNat_tag (n := 251 - n) (by omega) (by omega)
      omega
    have h₁ : ¬ 251 - n < 64 := by omega
    have h₂ : ¬ 251 - n < 128 := by omega
    have h₃ : ¬ (251 - n < 247 ∨ 251 - n = 255) := by omega
    have h₄ : ¬ 251 - n = 247 := by omega
    have h₅ : 251 - n < 251 := by omega
    have h₆ : 251 - (251 - n) = n := by omega
    simp [difference, run_byte, htag, run_short hlow hhigh, h₁, h₂, h₃, h₄, h₅, h₆,
      Nat.not_lt.2 hle, Int.toNat_of_nonneg hlow]
  | @appended d is xs hlow hhigh hthree hxs =>
    have htag : (low8 (251 + is.length)).toNat = 251 + is.length := by
      have := toNat_tag (n := 251 + is.length) (by omega) (by omega)
      omega
    have h₁ : ¬ 251 + is.length < 64 := by omega
    have h₂ : ¬ 251 + is.length < 128 := by omega
    have h₃ : ¬ (251 + is.length < 247 ∨ 251 + is.length = 255) := by omega
    have h₄ : ¬ 251 + is.length = 247 := by omega
    have h₅ : ¬ 251 + is.length < 251 := by omega
    simp [difference, run_byte, htag, run_short hlow hhigh, h₁, h₂, h₃, h₄, h₅, run_items hxs,
      Int.toNat_of_nonneg hlow]
  | @full d ls ss xs ys hlow hhigh hls hss hxs hys =>
    have htag : (low8 255).toNat = 255 := rfl
    have hfull := run_full hlow hhigh hls hss hxs hys rest
    simp only [append_assoc] at hfull
    simp [difference, run_byte, htag, hfull]

/-! ## Whole stack maps -/

/-- The local variables of the last frame, or those behind which there are no frames yet. -/
def lastLocals (start : List (FrameItem Int)) (fs : List TableFrame) : List (FrameItem Int) :=
  (fs.getLast?.map locals).getD start

/-- The offset of the last frame, or the one behind which there are no frames yet. -/
def lastOffset (start : Int) (fs : List TableFrame) : Int := (fs.getLast?.map offset).getD start

@[simp] theorem lastLocals_append (start : List (FrameItem Int)) (fs : List TableFrame)
    (f : TableFrame) : lastLocals start (fs ++ [f]) = f.locals := by
  simp [lastLocals]

@[simp] theorem lastOffset_append (start : Int) (fs : List TableFrame) (f : TableFrame) :
    lastOffset start (fs ++ [f]) = f.offset := by
  simp [lastOffset]

theorem lastLocals_cons (start : List (FrameItem Int)) (f : TableFrame) (fs : List TableFrame) :
    lastLocals start (f :: fs) = lastLocals f.locals fs := by
  cases fs <;> simp [lastLocals, getLast?_cons]

theorem lastOffset_cons (start : Int) (f : TableFrame) (fs : List TableFrame) :
    lastOffset start (f :: fs) = lastOffset f.offset fs := by
  cases fs <;> simp [lastOffset, getLast?_cons]

def behind (start : Int) (fs : List TableFrame) (f : TableFrame) : TableFrame :=
  { f with offset := lastOffset start fs + f.offset + 1 }

theorem readFull_succ (p : Pool) (n : Nat) :
    readFull p (n + 1) = do
      let fs ← readFull p n
      return fs ++ [← full p] := by
  induction n with
  | zero => simp [readFull]
  | succ n ih =>
    conv_lhs => rw [readFull, ih]
    simp [readFull]

theorem readDifferences_succ (p : Pool) (n : Nat) (start : List (FrameItem Int)) (offset : Int) :
    readDifferences p (n + 1) start offset = do
      let fs ← readDifferences p n start offset
      return fs ++ [behind offset fs (← difference p (lastLocals start fs))] := by
  induction n generalizing start offset with
  | zero => simp [readDifferences, behind, lastLocals, lastOffset]
  | succ n ih =>
    conv_lhs => rw [readDifferences]; simp only [ih]
    simp [readDifferences, behind, lastLocals_cons, lastOffset_cons]

/-- A stack map that is drawn up frame by frame. -/
inductive Drawn (p : Pool) (isOld : Bool) (start : List (FrameItem Int)) :
    List UInt8 → List TableFrame → Prop
  | nil : Drawn p isOld start [] []
  | full {bs : List UInt8} {fs : List TableFrame} {offset : Int} {ls ss : List MapItem}
      {xs ys : List (FrameItem Int)} : isOld = true → Drawn p isOld start bs fs →
      0 ≤ offset → offset ≤ 65535 → List.Forall₂ (Stands p) ls xs → List.Forall₂ (Stands p) ss ys →
      xs.length ≤ 65535 → ys.length ≤ 65535 →
      Drawn p isOld start (bs ++ (bytes16 offset ++ (counted ls ++ counted ss)))
        (fs ++ [⟨offset, xs, ys⟩])
  | difference {bs row : List UInt8} {fs : List TableFrame} {f : TableFrame} : isOld = false →
      Drawn p isOld start bs fs → Spells p (lastLocals start fs) row f →
      Drawn p isOld start (bs ++ row) (fs ++ [behind (-1) fs f])

variable {isOld : Bool} {start : List (FrameItem Int)} {bs : List UInt8} {fs : List TableFrame}

theorem Drawn.mono (h : p.Extends q) (hfs : Drawn p isOld start bs fs) :
    Drawn q isOld start bs fs := by
  induction hfs with
  | nil => exact .nil
  | full hold _ hlow hhigh hls hss hxs hys ih =>
    exact .full hold ih hlow hhigh (hls.imp fun _ _ hx => hx.mono h)
      (hss.imp fun _ _ hx => hx.mono h) hxs hys
  | difference hold _ hspells ih => exact .difference hold ih (hspells.mono h)

/-- The reader takes a whole map of frames, by induction on how it was drawn. -/
theorem Drawn.run (h : Drawn p isOld start bs fs) (rest : List UInt8) :
    (if isOld then readFull p fs.length else readDifferences p fs.length start (-1)).run
      (bs ++ rest) = .ok (fs, rest) := by
  induction h generalizing rest with
  | nil => cases isOld <;> rfl
  | full hold _ hlow hhigh hls hss hxs hys ih =>
    subst hold
    have hfull := run_full hlow hhigh hls hss hxs hys rest
    simp only [if_true, append_assoc] at ih hfull ⊢
    simp [readFull_succ, ih, hfull]
  | difference hold _ hspells ih =>
    subst hold
    simp only [Bool.false_eq_true, if_false, append_assoc] at ih ⊢
    simp [readDifferences_succ, ih, hspells.run]

end TableFrame

end ClassAssembler
