import Mathlib.Algebra.Ring.Nat
import Mathlib.Logic.Function.Basic
import ClassAssembler.Method.Flow
import ClassAssembler.Proofs.PoolCallSites

/-!
# Code with labels

Code that is being written consists of pieces: bytes, and distances to labels.  What stands in a
place depends on which labels have a position already.  `Piece.encodeAll` gives the bytes for any
positions, and `Piece.waitingAll` the jumps that wait for a label.  When a label gets its position,
settling the jumps that wait for it turns the bytes into those for the new positions
(`Buffer.settleJumps_encodeAll`).
-/

namespace ClassAssembler

open List

abbrev Positions := LabelId → Option Nat

inductive Piece where
  | bytes (bs : List UInt8)
  | short (op : UInt8) (l : LabelId)
  | wide (source : Nat) (l : LabelId)
deriving DecidableEq

namespace Piece

variable {ps : List Piece} {o : Nat} {r r' : Positions}

def size : Piece → Nat
  | bytes bs => bs.length
  | short .. => 3
  | wide .. => 4

def label? : Piece → Option LabelId
  | bytes _ => none
  | short _ l => some l
  | wide _ l => some l

def pendingOp (op : UInt8) : UInt8 :=
  op + UInt8.ofNat (if op.toNat ≤ Opcode.jsr.code then Opcode.pendingShift else
    Opcode.pendingNullShift)

/-- A jump over a distance, which is pending if the distance does not fit. -/
def jumpBytes (op : UInt8) (distance : Int) : List UInt8 :=
  (if Buffer.fitsShort distance then op else pendingOp op) :: Buffer.bytes16 distance

/-- The bytes of a piece at an offset.  A distance that is not known yet is held open. -/
def encode (r : Positions) (o : Nat) : Piece → List UInt8
  | bytes bs => bs
  | short op l =>
    match r l with
    | some t => jumpBytes op (t - o)
    | none => op :: Buffer.bytes16 (-1)
  | wide source l =>
    match r l with
    | some t => Buffer.bytes32 (t - source)
    | none => Buffer.bytes32 (-1)

def waiting (l : LabelId) (o : Nat) : Piece → List PendingJump
  | bytes _ => []
  | short _ k => if k = l then [⟨o, o + 1, false⟩] else []
  | wide source k => if k = l then [⟨source, o, true⟩] else []

def isPending (r : Positions) (o : Nat) : Piece → Bool
  | short _ l =>
    match r l with
    | some t => !Buffer.fitsShort (t - o)
    | none => false
  | _ => false

def sizeAll (ps : List Piece) : Nat := (ps.map size).sum

def encodeAll (r : Positions) : Nat → List Piece → List UInt8
  | _, [] => []
  | o, p :: ps => p.encode r o ++ encodeAll r (o + p.size) ps

def waitingAll (l : LabelId) : Nat → List Piece → List PendingJump
  | _, [] => []
  | o, p :: ps => p.waiting l o ++ waitingAll l (o + p.size) ps

def anyPending (r : Positions) : Nat → List Piece → Bool
  | _, [] => false
  | o, p :: ps => p.isPending r o || anyPending r (o + p.size) ps

@[simp] theorem length_encode (r : Positions) (o : Nat) (p : Piece) :
    (p.encode r o).length = p.size := by
  cases p with
  | bytes bs => rfl
  | short op l =>
    simp only [encode]
    split <;> rfl
  | wide source l =>
    simp only [encode]
    split <;> rfl

@[simp] theorem sizeAll_nil : sizeAll [] = 0 := rfl

@[simp] theorem sizeAll_cons (p : Piece) (ps : List Piece) :
    sizeAll (p :: ps) = p.size + sizeAll ps := by
  simp [sizeAll]

@[simp] theorem sizeAll_append (ps qs : List Piece) :
    sizeAll (ps ++ qs) = sizeAll ps + sizeAll qs := by
  simp [sizeAll]

@[simp] theorem length_encodeAll (r : Positions) (o : Nat) (ps : List Piece) :
    (encodeAll r o ps).length = sizeAll ps := by
  induction ps generalizing o with
  | nil => rfl
  | cons p ps ih => simp [encodeAll, ih]

theorem encodeAll_append (r : Positions) (o : Nat) (ps qs : List Piece) :
    encodeAll r o (ps ++ qs) = encodeAll r o ps ++ encodeAll r (o + sizeAll ps) qs := by
  induction ps generalizing o with
  | nil => rfl
  | cons p ps ih => simp [encodeAll, ih, Nat.add_assoc]

theorem waitingAll_append (l : LabelId) (o : Nat) (ps qs : List Piece) :
    waitingAll l o (ps ++ qs) = waitingAll l o ps ++ waitingAll l (o + sizeAll ps) qs := by
  induction ps generalizing o with
  | nil => rfl
  | cons p ps ih => simp [waitingAll, ih, Nat.add_assoc]

theorem anyPending_append (r : Positions) (o : Nat) (ps qs : List Piece) :
    anyPending r o (ps ++ qs) = (anyPending r o ps || anyPending r (o + sizeAll ps) qs) := by
  induction ps generalizing o with
  | nil => rfl
  | cons p ps ih => simp [anyPending, ih, Nat.add_assoc, Bool.or_assoc]

/-! ## Positions -/

theorem encode_congr {p : Piece} (h : ∀ l, p.label? = some l → r' l = r l) :
    p.encode r' o = p.encode r o := by
  cases p with
  | bytes bs => rfl
  | short op l => simp only [encode, h l rfl]
  | wide source l => simp only [encode, h l rfl]

theorem encodeAll_congr (h : ∀ p ∈ ps, ∀ l, p.label? = some l → r' l = r l) :
    encodeAll r' o ps = encodeAll r o ps := by
  induction ps generalizing o with
  | nil => rfl
  | cons p ps ih =>
    rw [encodeAll, encodeAll, encode_congr (h p mem_cons_self),
      ih fun q hq => h q (mem_cons_of_mem p hq)]

theorem isPending_congr {p : Piece} (h : ∀ l, p.label? = some l → r' l = r l) :
    p.isPending r' o = p.isPending r o := by
  cases p with
  | bytes bs => rfl
  | short op l => simp only [isPending, h l rfl]
  | wide source l => rfl

theorem anyPending_congr (h : ∀ p ∈ ps, ∀ l, p.label? = some l → r' l = r l) :
    anyPending r' o ps = anyPending r o ps := by
  induction ps generalizing o with
  | nil => rfl
  | cons p ps ih =>
    rw [anyPending, anyPending, isPending_congr (h p mem_cons_self),
      ih fun q hq => h q (mem_cons_of_mem p hq)]

theorem exists_pending_of_any (h : anyPending r o ps = true) :
    ∃ o', ∃ p ∈ ps, p.isPending r o' = true := by
  induction ps generalizing o with
  | nil => cases h
  | cons p ps ih =>
    rw [anyPending, Bool.or_eq_true] at h
    rcases h with h | h
    · exact ⟨o, p, mem_cons_self, h⟩
    · obtain ⟨o', q, hq, hpend⟩ := ih h
      exact ⟨o', q, mem_cons_of_mem p hq, hpend⟩

end Piece

/-! ## Settling jumps -/

namespace Buffer

open Piece

variable {b : Buffer} {before behind : List UInt8} {i : Nat} {x : UInt8}

theorem patch_append (v : UInt8) (hb : b.toList = before ++ x :: behind) (hi : before.length = i) :
    ∃ b', b.patch i v = .ok b' ∧ b'.toList = before ++ v :: behind := by
  subst hi
  have hsize : before.length < b.bytes.size := by
    rw [← Array.length_toList, show b.bytes.toList = _ from hb]
    simp
  refine ⟨_, if_pos hsize, ?_⟩
  have hset : b.bytes.toList.set before.length v = before ++ v :: behind := by
    rw [show b.bytes.toList = _ from hb]
    simp
  rw [toList, Array.toList_setIfInBounds]
  exact hset

theorem patchList_append {old : List UInt8} (vs : List UInt8)
    (hb : b.toList = before ++ (old ++ behind)) (hi : before.length = i)
    (hold : old.length = vs.length) :
    ∃ b', b.patchList i vs = .ok b' ∧ b'.toList = before ++ (vs ++ behind) := by
  induction vs generalizing b before old i with
  | nil =>
    obtain rfl := length_eq_zero_iff.1 hold
    exact ⟨b, rfl, hb⟩
  | cons v vs ih =>
    cases old with
    | nil => cases hold
    | cons x old =>
      obtain ⟨c, hc, hcl⟩ := patch_append v hb hi
      have hc' : c.toList = (before ++ [v]) ++ (old ++ behind) := by simp [hcl]
      obtain ⟨d, hd, hdl⟩ := ih hc' (i := i + 1) (by simp [hi]) (by simpa using hold)
      refine ⟨d, ?_, by simp [hdl]⟩
      simp only [patchList, hc, bind, Except.bind]
      exact hd

theorem peek_append (hb : b.toList = before ++ x :: behind) (hi : before.length = i) :
    b.peek i = .ok x := by
  subst hi
  have hx : b.bytes[before.length]? = some x := by
    rw [← Array.getElem?_toList, show b.bytes.toList = _ from hb]
    simp
  simp only [peek, hx]

theorem settleJump_short {op y : UInt8} (position : Nat)
    (hb : b.toList = before ++ op :: x :: y :: behind) :
    ∃ b', b.settleJump position ⟨before.length, before.length + 1, false⟩ =
        .ok (b', !fitsShort (position - before.length)) ∧
      b'.toList = before ++ (jumpBytes op (position - before.length) ++ behind) := by
  have hb' : b.toList = (before ++ [op]) ++ ([x, y] ++ behind) := by simp [hb]
  by_cases hfit : fitsShort ((position : Int) - before.length)
  · obtain ⟨c, hc, hcl⟩ := patchList_append (bytes16 (position - before.length)) hb'
      (i := before.length + 1) (by simp) rfl
    refine ⟨c, ?_, ?_⟩
    · simp only [settleJump, hfit, Bool.false_eq_true, if_false, if_true, Bool.not_true, bind,
        Except.bind, pure, Except.pure]
      rw [show [low8 (((position : Int) - before.length) / 256), low8 (position - before.length)] =
        bytes16 (position - before.length) from rfl, hc]
    · simp [hcl, jumpBytes, hfit]
  · obtain ⟨c, hc, hcl⟩ := patch_append (pendingOp op) hb rfl
    have hc' : c.toList = (before ++ [pendingOp op]) ++ ([x, y] ++ behind) := by simp [hcl]
    obtain ⟨d, hd, hdl⟩ := patchList_append (bytes16 (position - before.length)) hc'
      (i := before.length + 1) (by simp) rfl
    refine ⟨d, ?_, ?_⟩
    · have hpeek : b.peek before.length = .ok op := peek_append hb rfl
      have hpatch : b.patch before.length (op + UInt8.ofNat
          (if op.toNat ≤ Opcode.jsr.code then Opcode.pendingShift else Opcode.pendingNullShift)) =
          .ok c := hc
      simp only [settleJump, hfit, Bool.false_eq_true, if_false, Nat.add_one_sub_one, bind,
        Except.bind, pure, Except.pure, hpeek, hpatch, Bool.not_false]
      rw [show [low8 (((position : Int) - before.length) / 256), low8 (position - before.length)] =
        bytes16 (position - before.length) from rfl, hd]
      rfl
    · simp [hdl, jumpBytes, hfit]

theorem settleJump_wide {old : List UInt8} (position source : Nat)
    (hb : b.toList = before ++ (old ++ behind)) (hold : old.length = 4) :
    ∃ b', b.settleJump position ⟨source, before.length, true⟩ = .ok (b', false) ∧
      b'.toList = before ++ (bytes32 (position - source) ++ behind) := by
  obtain ⟨c, hc, hcl⟩ := patchList_append (bytes32 (position - source)) hb rfl hold
  refine ⟨c, ?_, hcl⟩
  simp only [settleJump, if_true, bind, Except.bind, pure, Except.pure, hc]

theorem settleJumps_waiting {r : Positions} {l : LabelId} (hl : r l = none) (position : Nat)
    (p : Piece) (js : List PendingJump) (pending : Bool)
    (hb : b.toList = before ++ (p.encode r before.length ++ behind)) :
    ∃ (c : Buffer) (q : Bool), b.settleJumps position (p.waiting l before.length ++ js) pending =
        c.settleJumps position js (pending || q) ∧
      c.toList = before ++
        (p.encode (Function.update r l (some position)) before.length ++ behind) ∧
      (p.isPending (Function.update r l (some position)) before.length →
        q ∨ p.isPending r before.length) ∧
      (q → p.isPending (Function.update r l (some position)) before.length) := by
  by_cases hp : p.label? = some l
  · cases p with
    | bytes bs => cases hp
    | short op k =>
      obtain rfl : k = l := Option.some.inj hp
      have hb' : b.toList =
          before ++ op :: low8 (-1 / 256) :: low8 (-1) :: behind := by
        rw [hb]
        simp only [encode, hl]
        rfl
      obtain ⟨c, hc, hcl⟩ := settleJump_short position hb'
      refine ⟨c, !fitsShort (position - before.length), ?_, ?_, ?_, ?_⟩
      · simp only [waiting, if_true, cons_append, nil_append, settleJumps, hc, bind,
          Except.bind]
      · simpa only [encode, Function.update_self] using hcl
      · intro h
        exact .inl (by simpa only [isPending, Function.update_self] using h)
      · intro h
        simpa only [isPending, Function.update_self] using h
    | wide source k =>
      obtain rfl : k = l := Option.some.inj hp
      simp only [encode, hl] at hb
      obtain ⟨c, hc, hcl⟩ := settleJump_wide position source hb rfl
      refine ⟨c, false, ?_, ?_, by simp [isPending], by simp⟩
      · simp only [waiting, if_true, cons_append, nil_append, settleJumps, hc, bind,
          Except.bind]
      · simpa only [encode, Function.update_self] using hcl
  · have hsame : ∀ k, p.label? = some k → Function.update r l (some position) k = r k := by
      intro k hk
      refine Function.update_of_ne ?_ _ _
      rintro rfl
      exact hp hk
    have hnone : p.waiting l before.length = [] := by
      cases p with
      | bytes bs => rfl
      | short op k => simpa [waiting, label?] using hp
      | wide source k => simpa [waiting, label?] using hp
    refine ⟨b, false, by simp [hnone], ?_, fun h => .inr ?_, by simp⟩
    · rw [encode_congr hsame]
      exact hb
    · rwa [isPending_congr hsame] at h

/-- Settling the jumps to a label gives the code that is written when its place is known. -/
theorem settleJumps_encodeAll {r : Positions} {l : LabelId} (hl : r l = none) (position : Nat)
    (ps : List Piece) (pending : Bool)
    (hb : b.toList = before ++ (encodeAll r before.length ps ++ behind)) :
    ∃ b' pending', b.settleJumps position (waitingAll l before.length ps) pending =
        .ok (b', pending') ∧
      b'.toList = before ++
        (encodeAll (Function.update r l (some position)) before.length ps ++ behind) ∧
      (anyPending (Function.update r l (some position)) before.length ps →
        pending' ∨ anyPending r before.length ps) ∧ (pending → pending') ∧
      (pending' → pending ∨ anyPending (Function.update r l (some position)) before.length ps) := by
  induction ps generalizing b before pending with
  | nil => exact ⟨b, pending, rfl, hb, by simp [anyPending], id, .inl⟩
  | cons p ps ih =>
    -- one piece is settled; the rest begins behind it
    obtain ⟨c, q, hsettle, hc, hq, hq'⟩ := settleJumps_waiting hl position p
      (waitingAll l (before.length + p.size) ps) pending (by simpa [encodeAll] using hb)
    have hlen : before.length + p.size =
        (before ++ p.encode (Function.update r l (some position)) before.length).length := by
      simp
    rw [← append_assoc, hlen] at hc
    rw [hlen] at hsettle
    obtain ⟨d, pending', hd, hdl, hpend, hor, hback⟩ := ih (pending || q) hc
    refine ⟨d, pending', ?_, ?_, ?_, ?_, ?_⟩
    · rw [waitingAll, hlen, hsettle, hd]
    · rw [hdl, encodeAll, hlen]
      simp
    · rw [anyPending, anyPending, hlen]
      grind
    · grind
    · rw [anyPending, hlen]
      grind

end Buffer

end ClassAssembler
