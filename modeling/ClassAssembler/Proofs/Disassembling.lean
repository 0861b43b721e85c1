import ClassAssembler.Proofs.Run
import ClassAssembler.Summary.Disassembly

/-!
# Disassembly moves on

Code is disassembled instruction after instruction, by their lengths.  The length of a switch comes
from the number of rows that it announces, which is a signed number, so that a malformed switch can
lead backwards.  It does so only below a bound, and code without such a switch is passed through in
at most as many steps as it has bytes.
-/

namespace ClassAssembler

/-! ## Computations that are not endless -/

namespace Checked

variable {α β : Type}

/-- A computation that gives a result or stops with another fault than that of a computation without
end. -/
def Finite (x : Checked α) : Prop := x ≠ .error .endless

theorem finite_ok (a : α) : Finite (.ok a : Checked α) := nofun

theorem Finite.bind {x : Checked α} {f : α → Checked β} (hx : x.Finite)
    (hf : ∀ a, x = .ok a → (f a).Finite) : (x >>= f).Finite := by
  cases x with
  | error e => exact fun h => hx (congrArg _ (Except.error.inj h))
  | ok a => exact hf a rfl

theorem finite_fetch (xs : Array α) (i : Int) : (fetch xs i).Finite := by
  unfold fetch Finite
  split
  · split <;> simp
  · simp

end Checked

namespace Code

open Checked

variable {c : Code} {p : ReadPool} {i n : Int}

theorem finite_unsigned8 (c : Code) (i : Int) : (c.unsigned8 i).Finite :=
  (finite_fetch c i).bind fun _ _ => finite_ok _

theorem finite_signed32 (c : Code) (i : Int) : (c.signed32 i).Finite := by
  have hshort (i : Int) : (c.unsigned16 i).Finite :=
    (c.finite_unsigned8 i).bind fun _ _ => (c.finite_unsigned8 (i + 1)).bind fun _ _ => finite_ok _
  exact (hshort i).bind fun _ _ => (hshort (i + 2)).bind fun _ _ => finite_ok _

theorem finite_lengthAt (c : Code) (i : Int) : (c.lengthAt i).Finite := by
  have hformat : (c.formatAt i).Finite := (finite_fetch c i).bind fun _ _ => finite_ok _
  have hfixed : (c.fixedLength i).Finite := by
    refine hformat.bind fun f _ => ?_
    cases f with
    | wide => exact (c.finite_unsigned8 (i + 1)).bind fun _ _ => finite_ok _
    | _ => exact finite_ok _
  refine hformat.bind fun f _ => ?_
  cases f with
  | tableSwitch =>
    exact (c.finite_signed32 _).bind fun _ _ => (c.finite_signed32 _).bind fun _ _ => finite_ok _
  | lookupSwitch => exact (c.finite_signed32 _).bind fun _ _ => finite_ok _
  | _ => exact hfixed.bind fun _ _ => finite_ok _

/-! ## The lengths of instructions -/

/-- A switch that announces fewer rows than none, by so much that it does not lead past its own
start. -/
def LeadsBack (c : Code) (i : Int) : Prop :=
  (c.formatAt i = .ok .tableSwitch ∧ ∃ low high, c.signed32 (switchOperands i + 4) = .ok low ∧
    c.signed32 (switchOperands i + 8) = .ok high ∧ Int.bmod (high - low + 1) 0x100000000 < -3) ∨
  (c.formatAt i = .ok .lookupSwitch ∧ ∃ count, c.signed32 (switchOperands i + 4) = .ok count ∧
    count < -1)

theorem fixedLength_pos {m : Nat} (h : c.fixedLength i = .ok m) : 1 ≤ m := by
  obtain ⟨f, -, h⟩ := Checked.bind_eq_ok.1 h
  cases f with
  | wide =>
    obtain ⟨op, -, h⟩ := Checked.bind_eq_ok.1 h
    cases h
    split <;> omega
  | _ =>
    cases h
    decide

/-- The operands of a switch begin one to four bytes behind its start. -/
theorem switchOperands_bounds (i : Int) : i + 1 ≤ switchOperands i ∧ switchOperands i ≤ i + 4 := by
  unfold switchOperands
  omega

theorem lengthAt_pos_iff (h : c.lengthAt i = .ok n) : 1 ≤ n ↔ ¬ c.LeadsBack i := by
  have hoperands := switchOperands_bounds i
  obtain ⟨f, hf, h⟩ := Checked.bind_eq_ok.1 h
  cases f with
  | tableSwitch =>
    obtain ⟨low, hlow, h⟩ := Checked.bind_eq_ok.1 h
    obtain ⟨high, hhigh, h⟩ := Checked.bind_eq_ok.1 h
    cases h
    have hback : c.LeadsBack i ↔ Int.bmod (high - low + 1) 0x100000000 < -3 := by
      simp [LeadsBack, hf, hlow, hhigh]
    rw [hback]
    omega
  | lookupSwitch =>
    obtain ⟨count, hcount, h⟩ := Checked.bind_eq_ok.1 h
    cases h
    have hback : c.LeadsBack i ↔ count < -1 := by
      simp [LeadsBack, hf, hcount]
    rw [hback]
    omega
  | _ =>
    obtain ⟨m, hm, h⟩ := Checked.bind_eq_ok.1 h
    cases h
    have hpos := fixedLength_pos hm
    have hback : ¬ c.LeadsBack i := by
      simp [LeadsBack, hf]
    simp only [hback, not_false_eq_true, iff_true]
    omega

/-! ## The lines of code -/

/-- The fuel is enough where every instruction leads forward: it is more than the number of bytes
left. -/
theorem finite_linesFrom (hforward : ∀ i : Nat, i < c.size → ¬ c.LeadsBack i)
    (hlines : ∀ i : Nat, (c.lineAt p i).Finite) {fuel i : Nat} (hi : i ≤ c.size)
    (hfuel : c.size < fuel + i) (done : Array Text) : (c.linesFrom p fuel i done).Finite := by
  induction fuel generalizing i done with
  | zero => omega
  | succ fuel ih =>
    unfold linesFrom
    split
    · exact finite_ok _
    next hinside =>
      refine (c.finite_lengthAt i).bind fun length hlength => ?_
      have hpos : 1 ≤ length := (lengthAt_pos_iff hlength).2 (hforward i (by omega))
      split
      · exact (c.finite_unsigned8 i).bind fun _ _ => finite_ok _
      next hlast =>
        refine (hlines i).bind fun line _ => ?_
        rw [if_neg (by omega)]
        exact ih (by omega) (by omega) _

/-- The length of an instruction is at least one unless it is a switch that leads back.  So
disassembly runs without end only through such a switch, or in the text of a single line. -/
theorem disassemble_advances (c : Code) (p : ReadPool) :
    (∀ i n, c.lengthAt i = .ok n → (1 ≤ n ↔ ¬ c.LeadsBack i)) ∧
    (c.disassemble p = .error .endless →
      (∃ i : Nat, i < c.size ∧ c.LeadsBack i) ∨ ∃ i : Nat, c.lineAt p i = .error .endless) := by
  refine ⟨fun i n h => lengthAt_pos_iff h, fun hendless => ?_⟩
  by_cases hforward : ∀ i : Nat, i < c.size → ¬ c.LeadsBack i
  · by_cases hlines : ∀ i : Nat, (c.lineAt p i).Finite
    · have hfinite := finite_linesFrom hforward hlines (Nat.zero_le c.size)
        (Nat.lt_succ_self c.size) #[]
      exact absurd hendless (hfinite.bind fun _ _ => finite_ok _)
    · obtain ⟨i, hi⟩ := Classical.not_forall.1 hlines
      exact .inr ⟨i, Classical.not_not.1 hi⟩
  · simp only [Classical.not_forall, Classical.not_not] at hforward
    obtain ⟨i, hi, hback⟩ := hforward
    exact .inl ⟨i, hi, hback⟩

example : (Code.lengthAt #[0xAB, 0, 0, 0, 0, 0, 0, 0, 0xFF, 0xFF, 0xFF, 0xFE] 0).toOption =
    some (-4) := by
  decide +kernel

end Code

end ClassAssembler
