import ClassAssembler.Proofs.Decoding

/-!
# Code that is written again

When code is written again, every instruction moves from its offset `o` to a new offset `φ o`, and
every jump that does not reach its target gets a form that does.  `Machine.Rewritten` says what may
stand in the new code for one instruction, `Machine.WidensOnce` says it of all the code, and
`Machine.WidensOften` of code that is written again several times.  The jump over a wide jump that a
condition may turn into reaches its target for good (`Machine.Settles`).
-/

namespace ClassAssembler

open List

def Instruction.isSwitch {T : Type} : Instruction T → Bool
  | tableSwitch .. | lookupSwitch .. => true
  | _ => false

theorem Instruction.targets_mapTargets {T U : Type} (f : T → U) (i : Instruction T) :
    (i.mapTargets f).targets = i.targets.map f := by
  cases i <;> rfl

theorem Instruction.mapTargets_mapTargets {T U V : Type} (f : T → U) (g : U → V)
    (i : Instruction T) : (i.mapTargets f).mapTargets g = i.mapTargets (g ∘ f) := by
  cases i <;> simp [mapTargets]

theorem Instruction.isSwitch_mapTargets {T U : Type} (f : T → U) (i : Instruction T) :
    (i.mapTargets f).isSwitch = i.isSwitch := by
  cases i <;> rfl

theorem Instruction.mapTargets_congr {T U : Type} {f g : T → U} {i : Instruction T}
    (h : ∀ t ∈ i.targets, f t = g t) : i.mapTargets f = i.mapTargets g := by
  cases i with
  | jump op t => simp [mapTargets, h t (by simp [targets])]
  | tableSwitch low high fallback targets | lookupSwitch fallback keys targets =>
    have hmap : targets.map f = targets.map g :=
      map_congr_left fun t ht => h t (by simp [Instruction.targets, ht])
    simp [mapTargets, h fallback (by simp [Instruction.targets]), hmap]
  | _ => rfl

theorem Instruction.targets_ne_nil {T : Type} {i : Instruction T} (h : i.isSwitch = true) :
    i.targets ≠ [] := by
  cases i <;> simp [isSwitch, targets] at h ⊢

namespace Machine

def moved (φ : Nat → Nat) (t : Int) : Int := φ t.toNat

/-- What stands in the new code for an instruction of the old code. -/
inductive Rewritten (φ : Nat → Nat) (old new : List UInt8) :
    Nat × Decoded → List (Nat × Decoded) → Prop
  | bare {o : Nat} {d : Decoded} (htargets : d.instruction.targets = [])
      (hbytes : (new.drop (φ o)).take d.length = (old.drop o).take d.length)
      (hnext : φ (o + d.length) = φ o + d.length) : Rewritten φ old new (o, d) [(φ o, d)]
  | switch {o n n' : Nat} {i : Instruction Int} (hi : i.isSwitch = true)
      (hnext : φ (o + n) = φ o + n') :
      Rewritten φ old new (o, ⟨i, n, false⟩) [(φ o, ⟨i.mapTargets (moved φ), n', false⟩)]
  | jump {o n : Nat} {op t : Int} {b b' : Bool} (hnext : φ (o + n) = φ o + n) :
      Rewritten φ old new (o, ⟨.jump op t, n, b⟩) [(φ o, ⟨.jump op (moved φ t), n, b'⟩)]
  | long {o : Nat} {op t : Int} {b b' : Bool} (hop : op = 167 ∨ op = 168)
      (hnext : φ (o + 3) = φ o + 5) :
      Rewritten φ old new (o, ⟨.jump op t, 3, b⟩) [(φ o, ⟨.jump (op + 33) (moved φ t), 5, b'⟩)]
  | inverted {o : Nat} {op t : Int} {b b' : Bool} (hop : op ∉ [167, 168, 200, 201])
      (hnext : φ (o + 3) = φ o + 8) :
      Rewritten φ old new (o, ⟨.jump op t, 3, b⟩)
        [(φ o, ⟨.jump (Opcode.invertJump op) (φ o + 8 : Nat), 3, false⟩),
          (φ o + 3, ⟨.jump 200 (moved φ t), 5, b'⟩)]

/-- A jump that goes forward and is not pending keeps its form for now. -/
def Forward (φ : Nat → Nat) (x : Nat × Decoded) (ys : List (Nat × Decoded)) : Prop :=
  ∀ op t n, x.2 = ⟨.jump op t, n, false⟩ → (x.1 : Int) < t →
    ∃ b, ys = [(φ x.1, ⟨.jump op (moved φ t), n, b⟩)] ∧ (b = true → 32767 < moved φ t - φ x.1)

/-- A jump that is pending or not short has nothing pending in its place, and a short one that is
pending grows. -/
structure Settles (φ : Nat → Nat) (x : Nat × Decoded) (ys : List (Nat × Decoded)) : Prop where
  calm : ∀ op t n b, x.2 = ⟨.jump op t, n, b⟩ → b = true ∨ n ≠ 3 → ∀ y ∈ ys, y.2.isPending = false
  grows : ∀ op t, x.2 = ⟨.jump op t, 3, true⟩ → φ (x.1 + 3) ≠ φ x.1 + 3

/-- What stands for an instruction in code that is written again once. -/
structure RewrittenOnce (φ : Nat → Nat) (old new : List UInt8) (x : Nat × Decoded)
    (ys : List (Nat × Decoded)) : Prop where
  rewritten : Rewritten φ old new x ys
  forward : Forward φ x ys
  settles : Settles φ x ys

def offsets (code : List UInt8) (ds : List (Nat × Decoded)) : List Nat :=
  ds.map Prod.fst ++ [code.length]

/-- Code is written again once. -/
structure WidensOnce (φ : Nat → Nat) (old new : List UInt8) (ds ds' : List (Nat × Decoded)) :
    Prop where
  pieces : ∃ dss, Forall₂ (RewrittenOnce φ old new) ds dss ∧ ds' = dss.flatten
  mono : ∀ a ∈ offsets old ds, ∀ b ∈ offsets old ds, a < b → φ a < φ b
  first : φ 0 = 0
  last : φ old.length = new.length

/-! ## Writing again several times -/

section

variable {φ ψ : Nat → Nat} {old mid new : List UInt8}

variable {ds ds' ys : List (Nat × Decoded)} {n o : Nat}

theorem Rewritten.eq_of_bare {d : Decoded} (h : Rewritten φ old new (o, d) ys)
    (hd : d.instruction.targets = []) :
    ys = [(φ o, d)] ∧ (new.drop (φ o)).take d.length = (old.drop o).take d.length ∧
      φ (o + d.length) = φ o + d.length := by
  cases h with
  | bare _ hbytes hnext => exact ⟨rfl, hbytes, hnext⟩
  | switch hi => exact absurd hd (Instruction.targets_ne_nil hi)
  | jump => cases hd
  | long => cases hd
  | inverted => cases hd

theorem Rewritten.eq_of_switch {i : Instruction Int} (h : Rewritten φ old new (o, ⟨i, n, false⟩) ys)
    (hi : i.isSwitch = true) :
    ∃ n', ys = [(φ o, ⟨i.mapTargets (moved φ), n', false⟩)] ∧ φ (o + n) = φ o + n' := by
  cases h with
  | bare hd => exact absurd hd (Instruction.targets_ne_nil hi)
  | switch _ hnext => exact ⟨_, rfl, hnext⟩
  | jump => cases hi
  | long => cases hi
  | inverted => cases hi

theorem Rewritten.eq_of_wide {op t : Int} {b : Bool}
    (h : Rewritten φ old new (o, ⟨.jump op t, n, b⟩) ys) (hop : op = 200 ∨ op = 201) :
    ∃ b', ys = [(φ o, ⟨.jump op (moved φ t), n, b'⟩)] ∧ φ (o + n) = φ o + n := by
  cases h with
  | bare hd => cases hd
  | switch hi => cases hi
  | jump hnext => exact ⟨_, rfl, hnext⟩
  | long h => omega
  | inverted h => simp at h; omega

theorem Rewritten.eq_of_forward {op t : Int}
    (h : Rewritten φ old new (o, ⟨.jump op t, n, false⟩) ys)
    (hf : Forward φ (o, ⟨.jump op t, n, false⟩) ys) (ht : (o : Int) < t) :
    φ (o + n) = φ o + n ∧ ∃ b, ys = [(φ o, ⟨.jump op (moved φ t), n, b⟩)] ∧
      (b = true → 32767 < moved φ t - φ o) := by
  obtain ⟨b, hb, hfar⟩ := hf op t n rfl ht
  refine ⟨?_, b, hb, hfar⟩
  cases h with
  | bare hd => cases hd
  | switch hi => cases hi
  | jump hnext => exact hnext
  | long => simp at hb
  | inverted => simp at hb

/-- Code is written again any number of times. -/
inductive WidensOften (old : List UInt8) (ds : List (Nat × Decoded)) :
    (Nat → Nat) → List UInt8 → List (Nat × Decoded) → Prop
  | never : WidensOften old ds id old ds
  | again {φ ψ : Nat → Nat} {mid new : List UInt8} {ds' ds'' : List (Nat × Decoded)}
      (before : WidensOften old ds φ mid ds') (last : WidensOnce ψ mid new ds' ds'') :
      WidensOften old ds (ψ ∘ φ) new ds''

end

end Machine

end ClassAssembler
