/-!
# Faults

A fault is an abrupt end of a run.  It is kept apart from the failures that the assembler reports,
because a fault leaves no usable state behind.
-/

namespace ClassAssembler

inductive Fault where
  /-- An index or a cut lies outside the sequence it addresses. -/
  | outOfRange
  /-- A part that the operation reads is not there. -/
  | missing
  /-- A length was moved below zero. -/
  | negativeLength
  /-- The input describes a computation without end. -/
  | endless
deriving DecidableEq, Repr, Inhabited

abbrev Checked (α : Type) := Except Fault α

namespace Checked

def fetch {α : Type} (xs : Array α) (i : Int) : Checked α :=
  if 0 ≤ i then
    match xs[i.toNat]? with
    | some x => .ok x
    | none => .error .outOfRange
  else .error .outOfRange

def need {α : Type} : Option α → Checked α
  | some a => .ok a
  | none => .error .missing

def store {α : Type} (xs : Array α) (i : Int) (x : α) : Checked (Array α) :=
  if 0 ≤ i ∧ i.toNat < xs.size then .ok (xs.setIfInBounds i.toNat x) else .error .outOfRange

@[simp] theorem fetch_ofNat {α : Type} (xs : Array α) (i : Nat) (h : i < xs.size) :
    fetch xs i = .ok xs[i] := by
  simp [fetch, h]

@[simp] theorem need_some {α : Type} (a : α) : need (some a) = .ok a := rfl

end Checked

end ClassAssembler
