import ClassAssembler.Proofs.WidenedClass

/-!
# The code of a listing

`Machine.Follows` says that instructions at their offsets are those of a listing, in order: every
instruction stands for itself, or a jump for its wide form or for the opposite condition over a wide
jump, and every label has the offset of the first instruction behind it.  The code of a method
follows the events it took (`CodeEvent.Traced.follows`), and it still does when it has been written
again (`Machine.Follows.widens`).
-/

namespace ClassAssembler

open Machine Item List Instruction

namespace Machine

/-- The jumps with a condition, each with the one that has the opposite condition. -/
def opposites : List (Int × Int) :=
  [(153, 154), (154, 153), (155, 156), (156, 155), (157, 158), (158, 157), (159, 160), (160, 159),
    (161, 162), (162, 161), (163, 164), (164, 163), (165, 166), (166, 165), (198, 199), (199, 198)]

def IsJump (op : Int) : Prop := 153 ≤ op ∧ op ≤ 168 ∨ 198 ≤ op ∧ op ≤ 201

/-- What stands in the code from an offset on for an instruction whose labels have positions, and
the offset behind it. -/
inductive Realizes {T : Type} (pos : T → Nat) (o : Nat) :
    Instruction T → List (Nat × Decoded) → Nat → Prop
  | bare {i : Instruction T} (n : Nat) (htargets : i.targets = []) :
      Realizes pos o i [(o, ⟨i.mapTargets fun l => (pos l : Int), n, false⟩)] (o + n)
  | switch {i : Instruction T} (n : Nat) (hi : i.isSwitch = true) :
      Realizes pos o i [(o, ⟨i.mapTargets fun l => (pos l : Int), n, false⟩)] (o + n)
  | jump {op : Int} (hop : IsJump op) (l : T) (n : Nat) (isPending : Bool) :
      Realizes pos o (.jump op l) [(o, ⟨.jump op (pos l), n, isPending⟩)] (o + n)
  | long {op : Int} (hop : op = 167 ∨ op = 168) (l : T) (isPending : Bool) :
      Realizes pos o (.jump op l) [(o, ⟨.jump (op + 33) (pos l), 5, isPending⟩)] (o + 5)
  | inverted {op op' : Int} (hop : (op, op') ∈ opposites) (l : T) (isPending : Bool) :
      Realizes pos o (.jump op l)
        [(o, ⟨.jump op' (o + 8 : Nat), 3, false⟩), (o + 3, ⟨.jump 200 (pos l), 5, isPending⟩)]
        (o + 8)

/-- What stands in the code from an offset on for events whose labels have positions, and the offset
behind it. -/
inductive Follows {T : Type} (pos : T → Nat) :
    Nat → List (CodeEvent T) → List (Nat × Decoded) → Nat → Prop
  | nil (o : Nat) : Follows pos o [] [] o
  | instruction {o o' stop : Nat} {i : Instruction T} {es : List (CodeEvent T)}
      {xs ds : List (Nat × Decoded)} (here : Realizes pos o i xs o')
      (rest : Follows pos o' es ds stop) : Follows pos o (.instruction i :: es) (xs ++ ds) stop
  | label {o stop : Nat} {l : T} {es : List (CodeEvent T)} {ds : List (Nat × Decoded)}
      (here : pos l = o) (rest : Follows pos o es ds stop) : Follows pos o (.label l :: es) ds stop
  | aside {o stop : Nat} {e : CodeEvent T} {es : List (CodeEvent T)} {ds : List (Nat × Decoded)}
      (hinstruction : ∀ i, e ≠ .instruction i) (hlabel : ∀ l, e ≠ .label l)
      (rest : Follows pos o es ds stop) : Follows pos o (e :: es) ds stop

section

variable {T : Type} {pos : T → Nat} {φ ψ : Nat → Nat} {old new : List UInt8}

theorem opposite_of_isJump {op : Int} (hjump : IsJump op) (hop : op ∉ [167, 168, 200, 201]) :
    (op, Opcode.invertJump op) ∈ opposites := by
  have hcases : op ∈ opposites.map Prod.fst := by
    simp only [IsJump] at hjump
    simp [opposites] at hop ⊢
    omega
  have hall : ∀ op ∈ opposites.map Prod.fst, (op, Opcode.invertJump op) ∈ opposites := by decide
  exact hall op hcases

/-- An instruction still stands in code that is written again, with its labels at their new
positions. -/
theorem Realizes.widens {o o' : Nat} {i : Instruction T} {xs : List (Nat × Decoded)}
    {yss : List (List (Nat × Decoded))} (h : Realizes pos o i xs o')
    (h' : List.Forall₂ (RewrittenOnce ψ old new) xs yss) :
    Realizes (ψ ∘ pos) (ψ o) i yss.flatten (ψ o') := by
  have hmoved (l : T) : moved ψ (pos l) = ((ψ ∘ pos) l : Nat) := by simp [moved]
  cases h with
  | bare n htargets =>
    obtain ⟨ys, _, ⟨hy, -⟩, hnil, rfl⟩ := forall₂_cons_left_iff.1 h'
    cases hnil
    have htargets' : (i.mapTargets fun l => (pos l : Int)).targets = [] := by
      rw [targets_mapTargets, htargets, map_nil]
    obtain ⟨rfl, -, hnext⟩ := hy.eq_of_bare htargets'
    dsimp only at hnext
    rw [hnext, mapTargets_congr (g := fun l => ((ψ ∘ pos) l : Int)) (by simp [htargets])]
    exact .bare n htargets
  | switch n hi =>
    obtain ⟨ys, _, ⟨hy, -⟩, hnil, rfl⟩ := forall₂_cons_left_iff.1 h'
    cases hnil
    obtain ⟨n', rfl, hnext⟩ := hy.eq_of_switch (by rwa [isSwitch_mapTargets])
    rw [hnext, mapTargets_mapTargets]
    have hsame : (moved ψ ∘ fun l : T => (pos l : Int)) = fun l => ((ψ ∘ pos) l : Int) :=
      funext hmoved
    rw [hsame]
    exact .switch n' hi
  | jump hop l n b =>
    obtain ⟨ys, _, ⟨hy, -⟩, hnil, rfl⟩ := forall₂_cons_left_iff.1 h'
    cases hnil
    cases hy with
    | bare htargets => cases htargets
    | switch hi => cases hi
    | jump hnext =>
      rw [hnext, hmoved]
      exact .jump hop l n _
    | long hop' hnext =>
      rw [hnext, hmoved]
      exact .long hop' l _
    | inverted hop' hnext =>
      rw [hnext, hmoved]
      exact .inverted (opposite_of_isJump hop hop') l _
  | long hop l b =>
    obtain ⟨ys, _, ⟨hy, -⟩, hnil, rfl⟩ := forall₂_cons_left_iff.1 h'
    cases hnil
    obtain ⟨b', rfl, hnext⟩ := hy.eq_of_wide (by omega)
    rw [hnext, hmoved]
    exact .long hop l b'
  | inverted hop l b =>
    obtain ⟨ys, _, ⟨hy, hforward, -⟩, hrest, rfl⟩ := forall₂_cons_left_iff.1 h'
    obtain ⟨zs, _, ⟨hz, -⟩, hnil, rfl⟩ := forall₂_cons_left_iff.1 hrest
    cases hnil
    obtain ⟨hnext, b', rfl, hfar⟩ := hy.eq_of_forward hforward (by omega)
    obtain ⟨b'', rfl, hnext'⟩ := hz.eq_of_wide (.inl rfl)
    -- the jump over the wide one stays short
    have hbehind : ψ (o + 8) = ψ o + 8 := by
      rw [show o + 8 = o + 3 + 5 from rfl, hnext', hnext]
    have hskip : moved ψ ((o + 8 : Nat) : Int) = (ψ o + 8 : Nat) := by
      rw [moved, Int.toNat_natCast, hbehind]
    obtain rfl : b' = false := by
      cases b' with
      | false => rfl
      | true =>
        have := hfar rfl
        omega
    rw [hskip, hmoved, hnext, hbehind]
    exact .inverted hop l b''

/-- Widened code follows the same events, with every label moved. -/
theorem Follows.widens {o stop : Nat} {es : List (CodeEvent T)} {ds : List (Nat × Decoded)}
    {dss : List (List (Nat × Decoded))} (h : Follows pos o es ds stop)
    (h' : List.Forall₂ (RewrittenOnce ψ old new) ds dss) :
    Follows (ψ ∘ pos) (ψ o) es dss.flatten (ψ stop) := by
  induction h generalizing dss with
  | nil o =>
    cases h'
    exact .nil (ψ o)
  | instruction here _ ih =>
    obtain ⟨yss, zss, rfl, hys, hzs⟩ := exists_of_forall₂_append h'
    rw [flatten_append]
    exact .instruction (here.widens hys) (ih hzs)
  | label here _ ih => exact .label (congrArg ψ here) (ih h')
  | aside hinstruction hlabel _ ih => exact .aside hinstruction hlabel (ih h')

theorem Follows.widensOften {es : List (CodeEvent T)} {ds ds' : List (Nat × Decoded)}
    (h : Follows pos 0 es ds old.length) (h' : WidensOften old ds φ new ds') :
    Follows (φ ∘ pos) 0 es ds' new.length := by
  induction h' with
  | never => exact h
  | @again φ ψ mid new ds' ds'' _ last ih =>
    obtain ⟨dss, hpieces, rfl⟩ := last.pieces
    have hnext := ih.widens hpieces
    rw [last.first, last.last] at hnext
    exact hnext

end

/-! ## Renamed labels -/

section

variable {T U : Type} {pos : U → Nat} {g : T → U}

theorem Realizes.of_mapTargets {o o' : Nat} {i : Instruction T} {xs : List (Nat × Decoded)}
    (h : Realizes pos o (i.mapTargets g) xs o') : Realizes (pos ∘ g) o i xs o' := by
  have hjump {op : Int} {l : U} (hi : i.mapTargets g = .jump op l) :
      ∃ t, i = .jump op t ∧ g t = l := by
    cases i with
    | jump op' t =>
      obtain ⟨rfl, rfl⟩ := jump.inj hi
      exact ⟨t, rfl, rfl⟩
    | _ => cases hi
  generalize hj : i.mapTargets g = j at h
  cases h with
  | bare n htargets =>
    rw [← hj, targets_mapTargets, map_eq_nil_iff] at htargets
    rw [← hj, mapTargets_mapTargets]
    exact .bare n htargets
  | switch n hi =>
    rw [← hj, isSwitch_mapTargets] at hi
    rw [← hj, mapTargets_mapTargets]
    exact .switch n hi
  | jump hop l n b =>
    obtain ⟨t, rfl, rfl⟩ := hjump hj
    exact .jump hop t n b
  | long hop l b =>
    obtain ⟨t, rfl, rfl⟩ := hjump hj
    exact .long hop t b
  | inverted hop l b =>
    obtain ⟨t, rfl, rfl⟩ := hjump hj
    exact .inverted hop t b

theorem Follows.of_mapTargets {o stop : Nat} {es : List (CodeEvent T)} {ds : List (Nat × Decoded)}
    (h : Follows pos o (es.map (CodeEvent.mapTargets g)) ds stop) :
    Follows (pos ∘ g) o es ds stop := by
  induction es generalizing o ds with
  | nil =>
    cases h
    exact .nil _
  | cons e es ih =>
    rw [map_cons] at h
    cases e with
    | instruction i =>
      cases h with
      | instruction here rest => exact .instruction here.of_mapTargets (ih rest)
      | aside hinstruction => exact absurd rfl (hinstruction _)
    | label l =>
      cases h with
      | label here rest => exact .label here (ih rest)
      | aside _ hlabel => exact absurd rfl (hlabel _)
    | _ =>
      cases h with
      | aside _ _ rest => exact .aside (by simp) (by simp) (ih rest)

end

end Machine

/-! ## The code that is first written -/

section

variable {p : Pool} {r : Positions} {o : Nat}

/-- The position of a label, or the beginning of the code if it has none. -/
def Positions.pos (r : Positions) (l : LabelId) : Nat := (r l).getD 0

theorem range_of_branch {op : Nat} (h : shape? op = some .branch) :
    153 ≤ op ∧ op ≤ 168 ∨ 198 ≤ op ∧ op ≤ 199 := by
  have hall : ∀ op < 221, shape? op = some .branch → 153 ≤ op ∧ op ≤ 168 ∨ 198 ≤ op ∧ op ≤ 199 := by
    decide +kernel
  exact hall op (Nat.lt_succ_of_le (le_of_shape? h)) h

theorem isJump_of_branch {op : Nat} (h : shape? op = some .branch) : IsJump op := by
  have hop := range_of_branch h
  unfold IsJump
  omega

theorem mem_opposites {op op' : Nat} (h : IsCondition op) (h' : Opcode.invertJump op = op') :
    ((op : Int), (op' : Int)) ∈ opposites := by
  rw [← h']
  refine opposite_of_isJump (isJump_of_branch h.1) ?_
  have hrange := range_of_branch h.1
  have hne := h.2
  simp only [mem_cons, not_mem_nil, or_false]
  omega

theorem Instruction.Forms.realizes {i : Instruction LabelId} {new : List Item}
    (h : i.Forms p r o new) :
    Realizes r.pos o i ((placed o new).map (readAt r)) (stop o new) := by
  cases h with
  | fixed h => exact .bare _ h.targets_eq
  | short h l => exact .jump (isJump_of_branch h) l 3 _
  | wide h l =>
    rcases h with rfl | rfl
    · exact .jump (.inr ⟨by decide, by decide⟩) l 5 _
    · exact .jump (.inr ⟨by decide, by decide⟩) l 5 _
  | widened h ht hback =>
    rcases h with rfl | rfl
    · exact .long (.inl rfl) _ _
    · exact .long (.inr rfl) _ _
  | inverted h h' hwide ht hback =>
    rcases hwide with rfl | rfl
    · exact .inverted (mem_opposites h h') _ _
    · exact .inverted (mem_opposites h h') _ _
  | table low high fallback targets => exact .switch _ rfl
  | lookup fallback keys targets => exact .switch _ rfl

/-- Items that were traced to events are read as the instructions of these events. -/
theorem CodeEvent.Traced.follows {es : List (CodeEvent LabelId)} {items : List Item}
    (h : Traced p r o es items) :
    Follows r.pos o es ((placed o items).map (readAt r)) (stop o items) := by
  induction h with
  | nil o => exact .nil o
  | @cons o e es new items here _ ih =>
    rw [placed_append, map_append, stop_append]
    cases here with
    | instruction h => exact .instruction h.realizes ih
    | label h => exact .label (by simp [Positions.pos, h]) ih
    | frame f => exact .aside (by simp) (by simp) ih
    | tryCatch => exact .aside (by simp) (by simp) ih
    | localVariable => exact .aside (by simp) (by simp) ih
    | line => exact .aside (by simp) (by simp) ih

theorem CodeEvent.Traced.resolved {es : List (CodeEvent LabelId)} {items : List Item}
    (h : Traced p r o es items) {l : LabelId} (hl : .label l ∈ es) : ∃ t, r l = some t := by
  induction h with
  | nil => cases hl
  | cons here _ ih =>
    rcases mem_cons.1 hl with rfl | hl
    · cases here with
      | label h => exact ⟨_, h⟩
    · exact ih hl

end

end ClassAssembler
