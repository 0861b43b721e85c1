import ClassAssembler.Proofs.Closing
import ClassAssembler.Proofs.Widening

/-!
# Instructions at new offsets

The code of a complete method that is not too long is read as its items say (`Method.Done.reads`).
When the instructions that are read are taken again, with a label for every target, each of them is
laid out at its new offset (`Machine.Laid`), and the machine reads the new code as the old one
written again (`Machine.Laid.widens`).
-/

namespace ClassAssembler

open Machine Item List Instruction

variable {bs : List UInt8}

namespace Item

def target (r : Positions) (l : LabelId) : Int := ((r l).getD 0 : Nat)

def readAt (r : Positions) (x : Nat × Item) : Nat × Decoded :=
  (x.1, ⟨x.2.reads (target r) x.1, x.2.size x.1, x.2.isPending r x.1⟩)

theorem reads_congr {s t : LabelId → Int} {i : Item} (h : ∀ l ∈ i.labels, s l = t l) (o : Nat)
    (hi : ∀ j bs, i = .fixed j bs → j.targets = []) : i.reads s o = i.reads t o := by
  cases i with
  | fixed j bs => exact mapTargets_congr (by simp [hi j bs rfl])
  | short op l | wide op l => simp [reads, h l (by simp [labels])]
  | skip op => rfl
  | table low high fallback targets | lookup fallback keys targets =>
    have hmap : targets.map s = targets.map t :=
      map_congr_left fun l hl => h l (by simp [labels, hl])
    simp [reads, h fallback (by simp [labels]), hmap]

end Item

theorem Instruction.Spelled.targets_eq {T : Type} {p : Pool} {i : Instruction T}
    (h : i.Spelled p bs) : i.targets = [] := by
  cases i <;> first | rfl | exact h.elim

theorem Instruction.spelled_mapTargets {T U : Type} {p : Pool} (f : T → U) {i : Instruction T} :
    (i.mapTargets f).Spelled p bs ↔ i.Spelled p bs := by
  cases i <;> exact Iff.rfl

theorem Instruction.Forms.ne_nil {p : Pool} {r : Positions} {o : Nat} {i : Instruction LabelId}
    {new : List Item} (h : i.Forms p r o new) : new ≠ [] := by
  cases h <;> simp

namespace Item

theorem Sound.targets_eq {p : Pool} {i : Item} (h : i.Sound p) {j : Instruction LabelId}
    {bs : List UInt8} (hi : i = .fixed j bs) : j.targets = [] := by
  subst hi
  exact h.2.targets_eq

theorem readAt_of_read {p : Pool} {r : Positions} {pos : LabelId → Nat} {x : Nat × Item}
    {y : Nat × Decoded} (h : Read r pos x y) (hi : x.2.Sound p)
    (hr : ∀ l ∈ x.2.labels, r l = some (pos l)) (hx : x.1 ≤ 65535)
    (hpos : ∀ l ∈ x.2.labels, pos l ≤ 65535) (hahead : x.2.Ahead r x.1) : y = readAt r x := by
  obtain ⟨ho, t, hy, ht⟩ := h
  have hreads : x.2.reads t x.1 = x.2.reads (target r) x.1 := by
    refine reads_congr (fun l hl => ?_) x.1 fun _ _ => hi.targets_eq
    rw [ht hx hpos hahead l hl, target, hr l hl, Option.getD_some]
  rw [readAt, ← hreads, ← hy, ho]

end Item

namespace Method

variable {own : LabelId → Prop} {items : List Item} {u : State}

theorem Done.position_le (h : Done own items u) (hlimit : u.2.code.size ≤ 65535) {l : LabelId}
    (hl : own l) : (u.1.2.spot l).position ≤ 65535 :=
  Nat.le_trans (le_of_mem_bounds (h.bounded l hl)) (h.codeSize ▸ hlimit)

theorem Done.position_eq (h : Done own items u) {i : Item} (hi : i ∈ items) {l : LabelId}
    (hl : l ∈ i.labels) : u.1.2.positions l = some (u.1.2.spot l).position := by
  obtain ⟨-, o, ho⟩ := h.targets i hi l hl
  rw [ho, (Session.positions_eq_some.1 ho).2]

theorem Done.disassembles (h : Done own items u) :
    ∃ ds, Disassembles u.1.1 u.2.code.toList 0 ds ∧
      Forall₂ (Read u.1.2.positions fun l => (u.1.2.spot l).position) (placed 0 items) ds :=
  Item.disassembles [] items h.code h.sound fun _ hi _ hl => h.position_eq hi hl

/-- The code of a method that is done is read as its items, in order. -/
theorem Done.reads (h : Done own items u) (hlimit : u.2.code.size ≤ 65535) :
    Disassembles u.1.1 u.2.code.toList 0 ((placed 0 items).map (readAt u.1.2.positions)) := by
  obtain ⟨ds, hds, hread⟩ := h.disassembles
  have heq : ds = (placed 0 items).map (readAt u.1.2.positions) := by
    refine eq_map_of_forall₂ hread fun x hx y hy => ?_
    have hi := mem_of_mem_placed hx
    refine readAt_of_read hy (h.sound _ hi) (fun l hl => h.position_eq hi hl) ?_
      (fun l hl => h.position_le hlimit (h.targets _ hi l hl).1) (h.ahead x hx)
    have hle : x.1 + x.2.size x.1 ≤ stop 0 items := (fst_le_stop hx).2
    have hsize := h.codeSize
    omega
  rw [← heq]
  exact hds

end Method

/-! ## Laying out again -/

namespace CodeEvent

def isInstruction {T : Type} : CodeEvent T → Bool
  | instruction _ => true
  | _ => false

variable {p : Pool} {r : Positions} {o : Nat} {es fs : List (CodeEvent LabelId)} {items : List Item}

theorem Traced.exists_append (h : Traced p r o (es ++ fs) items) :
    ∃ is js, items = is ++ js ∧ Traced p r o es is ∧ Traced p r (stop o is) fs js := by
  induction es generalizing o items with
  | nil => exact ⟨[], items, rfl, .nil o, h⟩
  | cons e es ih =>
    cases h with
    | cons here rest =>
      obtain ⟨is, js, rfl, his, hjs⟩ := ih rest
      exact ⟨_ ++ is, js, (append_assoc ..).symm, .cons here his, by rwa [stop_append]⟩

theorem Traced.of_silent (h : Traced p r o es items) (hes : ∀ e ∈ es, e.isInstruction = false) :
    items = [] ∧ ∀ l, .label l ∈ es → r l = some o := by
  induction h with
  | nil => exact ⟨rfl, nofun⟩
  | @cons o e es new items here rest ih =>
    have hnew : new = [] := by
      cases here with
      | instruction h => cases hes _ mem_cons_self
      | _ => rfl
    subst hnew
    obtain ⟨hitems, hlabels⟩ := ih fun e he => hes e (mem_cons_of_mem _ he)
    refine ⟨hitems, fun l hl => ?_⟩
    rcases mem_cons.1 hl with rfl | hl
    · cases here with
      | label h => exact h
    · exact hlabels l hl

end CodeEvent

namespace Machine

open CodeEvent

/-- The events of an instruction that is taken again, with labels for its targets. -/
def retaken (f : Int → LabelId) (x : Nat × Decoded) : List (CodeEvent LabelId) :=
  (x.2.rewritten x.1).map fun i => .instruction (i.mapTargets f)

/-- Instructions from an offset on that are laid out again, each at its new offset. -/
inductive Laid (p : Pool) (r : Positions) (f : Int → LabelId) (φ : Nat → Nat) :
    Nat → List (Nat × Decoded) → List Item → Prop
  | nil (o : Nat) : Laid p r f φ o [] []
  | cons {o : Nat} {d : Decoded} {ds : List (Nat × Decoded)} {new items : List Item}
      (here : Traced p r (φ o) (retaken f (o, d)) new) (next : stop (φ o) new = φ (o + d.length))
      (rest : Laid p r f φ (o + d.length) ds items) : Laid p r f φ o ((o, d) :: ds) (new ++ items)

section

variable {p : Pool} {r : Positions} {f : Int → LabelId} {φ ψ : Nat → Nat} {o : Nat}
  {ds : List (Nat × Decoded)} {items : List Item}

variable {code : List UInt8}

theorem Laid.congr (h : Laid p r f φ o ds items) (hφ : ∀ b, o ≤ b → ψ b = φ b) :
    Laid p r f ψ o ds items := by
  induction h with
  | nil o => exact .nil o
  | @cons o d ds new items here next rest ih =>
    refine .cons (hφ o (Nat.le_refl o) ▸ here) ?_ (ih fun b hb => hφ b (by omega))
    rw [hφ o (Nat.le_refl o), next, hφ _ (by omega)]

/-- Events of the code of a method: those of a label before every instruction, and frames. -/
inductive Body (at_ : Int → List (CodeEvent Int)) :
    List (Nat × Decoded) → List (CodeEvent Int) → Prop
  | nil : Body at_ [] []
  | cons {o : Nat} {d : Decoded} {ds : List (Nat × Decoded)} {frames es : List (CodeEvent Int)}
      (hframes : ∀ e ∈ frames, ∃ g, e = .frame g) (rest : Body at_ ds es) :
      Body at_ ((o, d) :: ds)
        (at_ o ++ (frames ++ ((d.rewritten o).map CodeEvent.instruction ++ es)))

theorem Disassembles.le_of_mem (h : Disassembles p code o ds) {b : Nat} (hb : b ∈ offsets code ds) :
    o ≤ b := by
  induction h with
  | done => exact Nat.le_of_eq (mem_singleton.1 hb).symm
  | @step o d ds here rest ih =>
    rcases mem_cons.1 hb with rfl | hb
    · exact Nat.le_refl _
    · exact Nat.le_trans (Nat.le_add_right ..) (ih hb)

theorem Disassembles.unique {ds' : List (Nat × Decoded)} (h : Disassembles p code o ds)
    (h' : Disassembles p code o ds') : ds = ds' := by
  have hend : decodeAt? p code code.length = none := by
    rw [decodeAt?, drop_length]
    rfl
  induction h generalizing ds' with
  | done =>
    cases h' with
    | done => rfl
    | step here => cases hend.symm.trans here
  | @step o d ds here rest ih =>
    cases h' with
    | done => cases hend.symm.trans here
    | step here' rest' =>
      obtain rfl := Option.some.inj (here.symm.trans here')
      rw [ih rest']

theorem Disassembles.start_mem (h : Disassembles p code o ds) : o ∈ offsets code ds := by
  cases h with
  | done => exact mem_singleton_self _
  | step => exact mem_cons_self

theorem rewritten_ne_nil (o : Nat) (d : Decoded) : d.rewritten o ≠ [] := by
  unfold Decoded.rewritten
  split
  · split
    · simp
    · split <;> simp
  · simp

theorem lt_stop_of_retaken {x : Nat × Decoded} {q : Nat} {new : List Item}
    (h : Traced p r q (retaken f x) new) (hsound : ∀ i ∈ new, i.Sound p) : q < stop q new := by
  rw [retaken] at h
  cases hx : x.2.rewritten x.1 with
  | nil => exact absurd hx (rewritten_ne_nil x.1 x.2)
  | cons i is =>
    rw [hx] at h
    cases h with
    | cons here rest =>
      have hlt : ∀ {is : List Item}, is ≠ [] → (∀ i ∈ is, i.Sound p) → q < stop q is := by
        intro is his hs
        cases is with
        | nil => exact absurd rfl his
        | cons j is =>
          have hj := size_pos (hs j mem_cons_self) q
          exact Nat.lt_of_lt_of_le (by omega) (le_stop (q + j.size q) is)
      rw [stop_append]
      refine Nat.lt_of_lt_of_le (hlt ?_ fun i hi => hsound i (mem_append_left _ hi)) (le_stop ..)
      cases here with
      | instruction h => exact h.ne_nil

/-- The events of all instructions are laid out with every instruction at a new offset, where the
labels before it stand. -/
theorem exists_laid {p₀ : Pool} {at_ : Int → List (CodeEvent Int)} {es : List (CodeEvent Int)}
    {q : Nat} (hd : Disassembles p₀ code o ds) (hpos : ∀ x ∈ ds, 0 < x.2.length)
    (hbody : Body at_ ds es) (hat : ∀ b, ∀ e ∈ at_ b, e.isInstruction = false)
    (h : Traced p r q ((es ++ at_ code.length).map (CodeEvent.mapTargets f)) items)
    (hsound : ∀ i ∈ items, i.Sound p) :
    ∃ φ : Nat → Nat, φ o = q ∧ φ code.length = stop q items ∧ Laid p r f φ o ds items ∧
      (∀ a ∈ offsets code ds, ∀ b ∈ offsets code ds, a < b → φ a < φ b) ∧
      ∀ b ∈ offsets code ds, ∀ t, .label t ∈ at_ b → r (f t) = some (φ b) := by
  have hmap : ∀ b, ∀ e ∈ (at_ b).map (CodeEvent.mapTargets f), e.isInstruction = false := by
    intro b e' he'
    obtain ⟨e, he, rfl⟩ := mem_map.1 he'
    have hb := hat b e he
    cases e with
    | instruction => cases hb
    | _ => rfl
  have hlabel : ∀ (b : Int) (t : Int), .label t ∈ at_ b →
      .label (f t) ∈ (at_ b).map (CodeEvent.mapTargets f) :=
    fun b t ht => mem_map.2 ⟨_, ht, rfl⟩
  induction hd generalizing es q items with
  | done =>
    cases hbody
    obtain ⟨rfl, hl⟩ := h.of_silent (hmap _)
    refine ⟨fun _ => q, rfl, rfl, .nil _, fun a ha b hb hab => ?_, fun b hb t ht => ?_⟩
    · rw [mem_singleton.1 ha, mem_singleton.1 hb] at hab
      exact absurd hab (Nat.lt_irrefl _)
    · rw [mem_singleton.1 hb] at ht
      exact hl _ (hlabel _ t ht)
  | @step o d ds here rest ih =>
    cases hbody with
    | @cons _ _ _ frames es hframes hbody =>
      simp only [append_assoc, map_append] at h
      obtain ⟨_, items, rfl, h₀, h⟩ := h.exists_append
      obtain ⟨rfl, hl⟩ := h₀.of_silent (hmap o)
      obtain ⟨_, items, rfl, h₀, h⟩ := h.exists_append
      obtain ⟨rfl, -⟩ := h₀.of_silent (by
        intro e' he'
        obtain ⟨e, he, rfl⟩ := mem_map.1 he'
        obtain ⟨g, rfl⟩ := hframes e he
        rfl)
      obtain ⟨new, items, rfl, hnew, h⟩ := h.exists_append
      simp only [nil_append, stop] at hsound hnew h ⊢
      have hnew : Traced p r q (retaken f (o, d)) new := by
        rw [retaken]
        rwa [map_map] at hnew
      obtain ⟨φ, hφ, hlast, hlaid, hmono, hlabels⟩ := ih
        (fun x hx => hpos x (mem_cons_of_mem _ hx)) hbody
        (by rwa [map_append]) fun i hi => hsound i (mem_append_right _ hi)
      have hlen : 0 < d.length := hpos _ mem_cons_self
      have hlt : q < stop q new :=
        lt_stop_of_retaken hnew fun i hi => hsound i (mem_append_left _ hi)
      have hne : ∀ b, o + d.length ≤ b → Function.update φ o q b = φ b :=
        fun b hb => Function.update_of_ne (by omega) ..
      have hself : Function.update φ o q o = q := Function.update_self ..
      have hmem : ∀ b ∈ offsets code ds, o + d.length ≤ b ∧ stop q new ≤ φ b := by
        intro b hb
        have hle := rest.le_of_mem hb
        refine ⟨hle, ?_⟩
        rcases Nat.lt_or_eq_of_le hle with hlt | rfl
        · exact hφ ▸ Nat.le_of_lt (hmono _ rest.start_mem b hb hlt)
        · exact Nat.le_of_eq hφ.symm
      refine ⟨Function.update φ o q, hself, ?_, .cons ?_ ?_ (hlaid.congr hne), ?_, ?_⟩
      · have hend : code.length ∈ offsets code ds := mem_append_right _ mem_cons_self
        rw [hne _ (hmem _ hend).1, hlast, stop_append]
      · rwa [hself]
      · rw [hself, hne _ (Nat.le_refl _), hφ]
      · intro a ha b hb hab
        rcases mem_cons.1 ha with rfl | ha'
        · rcases mem_cons.1 hb with rfl | hb'
          · exact absurd hab (Nat.lt_irrefl _)
          · rw [hself, hne b (hmem b hb').1]
            exact Nat.lt_of_lt_of_le hlt (hmem b hb').2
        · rcases mem_cons.1 hb with rfl | hb'
          · have := (hmem a ha').1
            omega
          · rw [hne a (hmem a ha').1, hne b (hmem b hb').1]
            exact hmono a ha' b hb' hab
      · intro b hb t ht
        rcases mem_cons.1 hb with rfl | hb'
        · rw [hself]
          exact hl _ (hlabel _ t ht)
        · rw [hne b (hmem b hb').1]
          exact hlabels b hb' t ht

end

end Machine

theorem Instruction.Forms.jump_cases {p : Pool} {r : Positions} {o op : Nat} {l : LabelId}
    {new : List Item} (h : Instruction.Forms p r o (.jump (op : Int) l) new) :
    shape? op = some .branch ∧ new = [.short op l] ∨
    (op = 200 ∨ op = 201) ∧ new = [.wide op l] ∨
    (op = 167 ∨ op = 168) ∧ new = [.wide (op + 33) l] ∧ (∃ t, r l = some t ∧ t ≤ o) ∨
    ∃ op' wide : Nat, IsCondition op ∧ Opcode.invertJump op = op' ∧ (wide = 200 ∨ wide = 220) ∧
      new = [.skip op', .wide wide l] ∧ ∃ t, r l = some t ∧ t ≤ o := by
  generalize hi : jump (op : Int) l = i at h
  cases h with
  | fixed h => subst hi; exact h.elim
  | short h =>
    obtain ⟨hop, rfl⟩ := jump.inj hi
    obtain rfl := Int.ofNat.inj hop
    exact .inl ⟨h, rfl⟩
  | wide h =>
    obtain ⟨hop, rfl⟩ := jump.inj hi
    obtain rfl := Int.ofNat.inj hop
    exact .inr (.inl ⟨h, rfl⟩)
  | widened h ht hback =>
    obtain ⟨hop, rfl⟩ := jump.inj hi
    obtain rfl := Int.ofNat.inj hop
    exact .inr (.inr (.inl ⟨h, rfl, _, ht, hback⟩))
  | inverted h h' hwide ht hback =>
    obtain ⟨hop, rfl⟩ := jump.inj hi
    obtain rfl := Int.ofNat.inj hop
    exact .inr (.inr (.inr ⟨_, _, h, h', hwide, rfl, _, ht, hback⟩))
  | table => cases hi
  | lookup => cases hi

theorem Instruction.Forms.eq_of_spelled {p : Pool} {r : Positions} {o : Nat}
    {i : Instruction LabelId} {new : List Item} (h : i.Forms p r o new) (hi : i.Spelled p bs)
    (hp : p.Wf) : new = [.fixed i bs] := by
  cases h with
  | fixed h => rw [hi.unique hp h]
  | _ => exact hi.elim

namespace Machine

open CodeEvent

section

variable {p : Pool} {r r₀ : Positions} {f : Int → LabelId} {φ : Nat → Nat} {old new : List UInt8}
  {o : Nat} {is : List Item}

variable {b : Bool} {i : Instruction Int} {t : Int} {ys : List (Nat × Decoded)} {n op q : Nat}

def Labelled (r : Positions) (f : Int → LabelId) (φ : Nat → Nat) (o : Nat) (t : Int) : Prop :=
  ∃ b : Nat, t = b ∧ r (f t) = some (φ b) ∧ (o < b → φ o < φ b)

theorem Labelled.target_eq (h : Labelled r f φ o t) : target r (f t) = moved φ t := by
  obtain ⟨b, rfl, hr, -⟩ := h
  rw [target, hr, moved, Int.toNat_natCast, Option.getD_some]

theorem size_short (o op : Nat) (l : LabelId) : (short op l).size o = 3 := rfl

theorem size_wide (o op : Nat) (l : LabelId) : (wide op l).size o = 5 := rfl

theorem size_skip (o op : Nat) : (skip op).size o = 3 := rfl

theorem traced_single {e : CodeEvent LabelId} (h : Traced p r q [e] is) : e.Lays p r q is := by
  cases h with
  | cons here rest =>
    cases rest
    rwa [append_nil]

theorem forms_single {i : Instruction LabelId} (h : Traced p r q [.instruction i] is) :
    i.Forms p r q is := by
  cases traced_single h with
  | instruction h => exact h

theorem readAt_short (ht : Labelled r f φ o t) (q : Nat) :
    readAt r (q, .short op (f t)) =
      (q, ⟨.jump op (moved φ t), 3, (short op (f t)).isPending r q⟩) := by
  rw [readAt, reads, ht.target_eq, size_short]

theorem readAt_wide (ht : Labelled r f φ o t) (q : Nat) :
    readAt r (q, .wide op (f t)) =
      (q, ⟨.jump (if op = 220 then 200 else op : Nat) (moved φ t), 5, op = 220⟩) := by
  rw [readAt, reads, ht.target_eq, size_wide]
  rfl

theorem far_of_isPending (ht : Labelled r f φ o t) (hlt : (o : Int) < t)
    (h : (short op (f t)).isPending r (φ o) = true) : 32767 < moved φ t - φ o := by
  obtain ⟨b, rfl, hr, hmono⟩ := ht
  have hφ : φ o < φ b := hmono (by omega)
  have hfits : ¬ Buffer.fitsShort ((φ b : Int) - φ o) = true := by
    simpa [isPending, Piece.isPending, hr] using h
  rw [moved, Int.toNat_natCast]
  simp only [Buffer.fitsShort, Bool.and_eq_true, decide_eq_true_eq, not_and] at hfits
  omega

theorem not_forward_of_back (ht : Labelled r f φ o t) (hback : ∃ t', r (f t) = some t' ∧ t' ≤ φ o) :
    ¬ (o : Int) < t := by
  obtain ⟨b, rfl, hr, hmono⟩ := ht
  obtain ⟨t', ht', hle⟩ := hback
  obtain rfl : φ b = t' := Option.some.inj (hr.symm.trans ht')
  intro hlt
  have := hmono (by omega)
  omega

theorem not_mem_of_isCondition (h : IsCondition op) :
    (op : Int) ∉ [(167 : Int), 168, 200, 201] := by
  obtain ⟨hshape, h167, h168⟩ := h
  have := branch_iff.1 hshape
  simp only [mem_cons, not_mem_nil, or_false]
  omega

theorem settles_of_short {op : Int} : Settles φ (o, ⟨.jump op t, 3, false⟩) ys := by
  refine ⟨fun op' t' n b heq h => ?_, fun op' t' heq => ?_⟩
  · obtain ⟨-, rfl, rfl⟩ := Decoded.mk.inj heq
    simp at h
  · cases heq

theorem rewritten_short (hop : shape? op = some .branch)
    (h : Instruction.Forms p r (φ o) (.jump (op : Int) (f t)) is)
    (hnext : stop (φ o) is = φ (o + 3)) (ht : Labelled r f φ o t) :
    RewrittenOnce φ old new (o, ⟨.jump op t, 3, false⟩) ((placed (φ o) is).map (readAt r)) := by
  have hforward : (∃ t', r (f t) = some t' ∧ t' ≤ φ o) →
      Forward φ (o, ⟨.jump op t, 3, false⟩) ((placed (φ o) is).map (readAt r)) := by
    intro hback op' t' n heq hlt
    obtain ⟨hjump, -, -⟩ := Decoded.mk.inj heq
    obtain ⟨-, rfl⟩ := jump.inj hjump
    exact absurd hlt (not_forward_of_back ht hback)
  have hbranch := branch_iff.1 hop
  rcases h.jump_cases with ⟨-, rfl⟩ | ⟨hop', -⟩ | ⟨hop', rfl, hback⟩ |
    ⟨op', wide, hcond, hinv, hwide, rfl, hback⟩
  · simp only [placed, map_cons, map_nil, readAt_short ht]
    refine ⟨.jump hnext.symm, fun op' t' n heq hlt => ?_, settles_of_short⟩
    obtain ⟨hjump, rfl, -⟩ := Decoded.mk.inj heq
    obtain ⟨rfl, rfl⟩ := jump.inj hjump
    exact ⟨_, rfl, far_of_isPending ht hlt⟩
  · omega
  · refine ⟨?_, hforward hback, settles_of_short⟩
    have hne : op + 33 ≠ 220 := by omega
    simp only [placed, map_cons, map_nil, readAt_wide ht, if_neg hne, Int.natCast_add]
    exact .long (by omega) hnext.symm
  · refine ⟨?_, hforward hback, settles_of_short⟩
    have hgoto : (if wide = 220 then 200 else wide) = 200 := by
      split <;> omega
    simp only [placed, map_cons, map_nil, readAt_wide ht, hgoto, size_skip]
    rw [readAt, reads, size_skip, ← hinv]
    exact .inverted (not_mem_of_isCondition hcond) hnext.symm

theorem forward_of_isPending {op : Int} : Forward φ (o, ⟨.jump op t, n, true⟩) ys := by
  intro op' t' n' heq
  cases heq

theorem settles_of_grows {op : Int} (hcalm : ∀ y ∈ ys, y.2.isPending = false)
    (hgrows : φ (o + 3) ≠ φ o + 3) : Settles φ (o, ⟨.jump op t, 3, true⟩) ys :=
  ⟨fun _ _ _ _ _ _ => hcalm, fun _ _ _ => hgrows⟩

theorem rewritten_wide (hop : op = 200 ∨ op = 201)
    (h : Instruction.Forms p r (φ o) (.jump (op : Int) (f t)) is)
    (hnext : stop (φ o) is = φ (o + 5)) (ht : Labelled r f φ o t) :
    RewrittenOnce φ old new (o, ⟨.jump op t, 5, b⟩) ((placed (φ o) is).map (readAt r)) := by
  have hne : op ≠ 220 := by omega
  rcases h.jump_cases with ⟨hshape, -⟩ | ⟨-, rfl⟩ | ⟨hop', -⟩ | ⟨op', wide, hcond, -⟩
  · have := branch_iff.1 hshape
    omega
  · simp only [placed, map_cons, map_nil, readAt_wide ht, if_neg hne]
    refine ⟨.jump hnext.symm, fun op' t' n heq hlt => ?_, fun _ _ _ _ _ _ y hy => ?_,
      fun op' t' heq => ?_⟩
    · obtain ⟨hjump, rfl, -⟩ := Decoded.mk.inj heq
      obtain ⟨rfl, rfl⟩ := jump.inj hjump
      exact ⟨_, rfl, fun h => absurd (of_decide_eq_true h) hne⟩
    · rw [mem_singleton.1 hy]
      exact decide_eq_false hne
    · cases heq
  · omega
  · have := branch_iff.1 hcond.1
    omega

theorem rewritten_pendingGoto (hop : op = 167 ∨ op = 168)
    (h : Instruction.Forms p r (φ o) (.jump ((op + 33 : Nat) : Int) (f t)) is)
    (hnext : stop (φ o) is = φ (o + 3)) (ht : Labelled r f φ o t) :
    RewrittenOnce φ old new (o, ⟨.jump op t, 3, true⟩) ((placed (φ o) is).map (readAt r)) := by
  have hne : op + 33 ≠ 220 := by omega
  rcases h.jump_cases with ⟨hshape, -⟩ | ⟨-, rfl⟩ | ⟨hop', -⟩ | ⟨op', wide, hcond, -⟩
  · have := branch_iff.1 hshape
    omega
  · simp only [placed, map_cons, map_nil, readAt_wide ht, if_neg hne, Int.natCast_add]
    refine ⟨.long (by omega) hnext.symm, forward_of_isPending, settles_of_grows ?_ ?_⟩
    · simpa using hne
    · rw [← hnext, stop, stop, size_wide]
      omega
  · omega
  · have := branch_iff.1 hcond.1
    omega

theorem rewritten_pendingCondition (hop : IsCondition op)
    (h : Traced p r (φ o) (([.jump (Opcode.invertJump op) ((o + 3 : Nat) : Int), .jump 200 t] :
      List (Instruction Int)).map fun i => .instruction (i.mapTargets f)) is)
    (hnext : stop (φ o) is = φ (o + 3)) (ht : Labelled r f φ o t)
    (hskip : Labelled r f φ o (o + 3 : Nat)) :
    RewrittenOnce φ old new (o, ⟨.jump op t, 3, true⟩) ((placed (φ o) is).map (readAt r)) := by
  obtain ⟨op', hop', hcond'⟩ := hop.invert
  cases h with
  | @cons _ _ _ new₁ items here rest =>
    cases here with
    | instruction here =>
      have hwide := forms_single rest
      rw [Instruction.mapTargets, hop'] at here
      have hbranch := branch_iff.1 hcond'.1
      rcases here.jump_cases with ⟨-, rfl⟩ | ⟨h', -⟩ | ⟨h', -⟩ | ⟨_, _, -, -, -, -, hback⟩
      · rcases (show Instruction.Forms p r (φ o + 3) (.jump ((200 : Nat) : Int) (f t)) items from
          hwide).jump_cases with ⟨hshape, -⟩ | ⟨-, rfl⟩ | ⟨h', -⟩ | ⟨_, _, hcond, -⟩
        · exact absurd (branch_iff.1 hshape) (by omega)
        · have hnext' : φ (o + 3) = φ o + 8 := hnext.symm
          have hshort : (short op' (f (o + 3 : Nat))).isPending r (φ o) = false := by
            obtain ⟨b, hb, hr, -⟩ := hskip
            obtain rfl : o + 3 = b := Int.ofNat.inj hb
            rw [isPending, Piece.isPending, hr, hnext']
            simp only [Buffer.fitsShort, Bool.not_eq_eq_eq_not, Bool.not_false, Bool.and_eq_true,
              decide_eq_true_eq]
            omega
          have hmoved : moved φ (o + 3 : Nat) = (φ o + 8 : Nat) := by
            rw [moved, Int.toNat_natCast, hnext']
          simp only [cons_append, nil_append, placed, map_cons, map_nil,
            size_short, readAt_short hskip, readAt_wide ht, hshort, hmoved, ← hop']
          refine ⟨.inverted (not_mem_of_isCondition hop) hnext', forward_of_isPending,
            settles_of_grows (by simp) (by omega)⟩
        · omega
        · exact absurd (branch_iff.1 hcond.1) (by omega)
      · omega
      · exact absurd h' (by rintro (rfl | rfl) <;> simp [IsCondition] at hcond')
      · exact absurd (not_forward_of_back hskip hback) (by omega)

theorem size_fixed (o : Nat) (j : Instruction LabelId) (bs : List UInt8) :
    (fixed j bs).size o = bs.length := by
  simp [size, pieces, Piece.sizeAll, Piece.size]

theorem settles_of_not_jump (h : ∀ op t, i ≠ .jump op t) : Settles φ (o, ⟨i, n, b⟩) ys :=
  ⟨fun op t _ _ heq => absurd (Decoded.mk.inj heq).1 (h op t),
    fun op t heq => absurd (Decoded.mk.inj heq).1 (h op t)⟩

theorem forward_of_not_jump (h : ∀ op t, i ≠ .jump op t) : Forward φ (o, ⟨i, n, b⟩) ys := by
  intro op t n' heq
  exact absurd (Decoded.mk.inj heq).1 (h op t)

theorem rewritten_fixed {j : Instruction LabelId} {bs : List UInt8} (hp : p.Wf)
    (hj : j.Spelled p bs)
    (h : Instruction.Forms p r (φ o) ((j.mapTargets (target r₀)).mapTargets f) is)
    (hnext : stop (φ o) is = φ (o + bs.length)) (hold : (old.drop o).take bs.length = bs)
    (hnew : ∀ j bs, is = [.fixed j bs] → (new.drop (φ o)).take bs.length = bs) :
    RewrittenOnce φ old new (o, ⟨j.mapTargets (target r₀), bs.length, false⟩)
      ((placed (φ o) is).map (readAt r)) := by
  have hspelled : ((j.mapTargets (target r₀)).mapTargets f).Spelled p bs :=
    (spelled_mapTargets f).2 ((spelled_mapTargets _).2 hj)
  have htargets : (j.mapTargets (target r₀)).targets = [] := by
    rw [targets_mapTargets, hj.targets_eq]
    rfl
  obtain rfl := h.eq_of_spelled hspelled hp
  have hsame : ((j.mapTargets (target r₀)).mapTargets f).mapTargets (target r) =
      j.mapTargets (target r₀) := by
    rw [mapTargets_mapTargets, mapTargets_mapTargets]
    exact mapTargets_congr (by simp [hj.targets_eq])
  have hjump (op t : Int) : j.mapTargets (target r₀) ≠ .jump op t := by
    intro hjump
    rw [hjump] at htargets
    cases htargets
  refine ⟨?_, forward_of_not_jump hjump, settles_of_not_jump hjump⟩
  · have hread : (placed (φ o) [fixed ((j.mapTargets (target r₀)).mapTargets f) bs]).map
        (readAt r) = [(φ o, ⟨j.mapTargets (target r₀), bs.length, false⟩)] := by
      simp only [placed, map_cons, map_nil, readAt, reads, hsame, size_fixed]
      rfl
    rw [hread]
    refine .bare htargets ?_ ?_
    · rw [hnew _ _ rfl, hold]
    · rw [← hnext, stop, stop, size_fixed]

theorem rewritten_switch (hi : i.isSwitch = true)
    (h : Instruction.Forms p r (φ o) (i.mapTargets f) is) (hnext : stop (φ o) is = φ (o + n))
    (ht : ∀ t ∈ i.targets, Labelled r f φ o t) :
    RewrittenOnce φ old new (o, ⟨i, n, false⟩) ((placed (φ o) is).map (readAt r)) := by
  have hjump (op t : Int) : i ≠ .jump op t := by
    rintro rfl
    cases hi
  refine ⟨?_, forward_of_not_jump hjump, settles_of_not_jump hjump⟩
  · have hreads : (i.mapTargets f).mapTargets (target r) = i.mapTargets (moved φ) := by
      rw [mapTargets_mapTargets]
      exact mapTargets_congr fun t hmem => (ht t hmem).target_eq
    have hread : ∃ n', (placed (φ o) is).map (readAt r) =
        [(φ o, ⟨i.mapTargets (moved φ), n', false⟩)] ∧ stop (φ o) is = φ o + n' := by
      rw [← hreads]
      cases i with
      | tableSwitch low high fallback targets =>
        cases h with
        | fixed h => exact h.elim
        | table => exact ⟨_, rfl, rfl⟩
      | lookupSwitch fallback keys targets =>
        cases h with
        | fixed h => exact h.elim
        | lookup => exact ⟨_, rfl, rfl⟩
      | _ => cases hi
    obtain ⟨n', hread, hstop⟩ := hread
    rw [hread]
    exact .switch hi (hnext ▸ hstop)

theorem rewritten_item {i : Item} (hp : p.Wf) (hi : i.Sound p)
    (h : Traced p r (φ o) (retaken f (readAt r₀ (o, i))) is)
    (hnext : stop (φ o) is = φ (o + i.size o))
    (htargets : ∀ j ∈ (readAt r₀ (o, i)).2.rewritten o, ∀ t ∈ j.targets, Labelled r f φ o t)
    (hold : ∀ j bs, i = .fixed j bs → (old.drop o).take bs.length = bs)
    (hnew : ∀ j bs, is = [.fixed j bs] → (new.drop (φ o)).take bs.length = bs) :
    RewrittenOnce φ old new (readAt r₀ (o, i)) ((placed (φ o) is).map (readAt r)) := by
  cases i with
  | fixed j bs =>
    rw [readAt, size_fixed]
    rw [size_fixed] at hnext
    exact rewritten_fixed hp hi.2 (forms_single h) hnext (hold j bs rfl) hnew
  | short op l =>
    have hop : ((op : Nat) : Int) ≠ 200 := by
      have := branch_iff.1 hi
      omega
    cases hpend : (short op l).isPending r₀ o with
    | false =>
      simp only [readAt, reads, size_short, hpend, retaken, Decoded.rewritten] at h htargets ⊢
      exact rewritten_short hi (forms_single h) hnext
        (htargets _ mem_cons_self _ mem_cons_self)
    | true =>
      simp only [readAt, reads, size_short, hpend, retaken, Decoded.rewritten,
        if_neg hop] at h htargets ⊢
      split at h
      next hgoto =>
        simp only [if_pos hgoto] at htargets
        exact rewritten_pendingGoto (by omega) (forms_single h) hnext
          (htargets _ mem_cons_self _ mem_cons_self)
      next hgoto =>
        simp only [if_neg hgoto] at htargets
        exact rewritten_pendingCondition ⟨hi, by omega, by omega⟩ h hnext
          (htargets _ (mem_cons_of_mem _ mem_cons_self) _ mem_cons_self)
          (htargets _ mem_cons_self _ mem_cons_self)
  | wide op l =>
    by_cases hop : op = 220
    · subst hop
      exact rewritten_wide (Or.inl rfl : 200 = 200 ∨ 200 = 201) (forms_single h) hnext
        (htargets _ mem_cons_self _ mem_cons_self)
    · simp only [readAt, reads, size_wide, isPending, if_neg hop, decide_eq_false hop, retaken,
        Decoded.rewritten] at h htargets ⊢
      exact rewritten_wide (by rcases hi with h | h | h <;> omega) (forms_single h) hnext
        (htargets _ mem_cons_self _ mem_cons_self)
  | skip op =>
    exact rewritten_short hi (forms_single h) hnext
      (htargets _ mem_cons_self _ mem_cons_self)
  | table low high fallback targets =>
    exact rewritten_switch rfl (forms_single h) hnext (htargets _ mem_cons_self)
  | lookup fallback keys targets =>
    exact rewritten_switch rfl (forms_single h) hnext (htargets _ mem_cons_self)

theorem Laid.rewritten {items₀ items : List Item} (hp : p.Wf) (hsound : ∀ i ∈ items₀, i.Sound p)
    (h : Laid p r f φ o ((placed o items₀).map (readAt r₀)) items)
    (htargets : ∀ x ∈ placed o items₀, ∀ j ∈ (readAt r₀ x).2.rewritten x.1, ∀ t ∈ j.targets,
      Labelled r f φ x.1 t)
    (hold : ∀ x ∈ placed o items₀, ∀ j bs, x.2 = .fixed j bs → (old.drop x.1).take bs.length = bs)
    (hnew : ∀ x ∈ placed (φ o) items, ∀ j bs, x.2 = .fixed j bs →
      (new.drop x.1).take bs.length = bs) :
    ∃ dss, Forall₂ (RewrittenOnce φ old new)
        ((placed o items₀).map (readAt r₀)) dss ∧
      (placed (φ o) items).map (readAt r) = dss.flatten := by
  induction items₀ generalizing o items with
  | nil =>
    cases h
    exact ⟨[], .nil, rfl⟩
  | cons i items₀ ih =>
    cases h with
    | @cons _ _ _ is items here next rest =>
      obtain ⟨dss, hdss, heq⟩ := ih (fun j hj => hsound j (mem_cons_of_mem i hj)) rest
        (fun x hx => htargets x (mem_cons_of_mem _ hx))
        (fun x hx => hold x (mem_cons_of_mem _ hx)) (fun x hx => hnew x (by
          rw [placed_append, next]
          exact mem_append_right _ hx))
      refine ⟨(placed (φ o) is).map (readAt r) :: dss, .cons ?_ hdss, ?_⟩
      · refine rewritten_item hp (hsound i mem_cons_self) here next
          (htargets _ mem_cons_self) (hold _ mem_cons_self) fun j bs hj => ?_
        subst hj
        exact hnew (φ o, .fixed j bs) mem_cons_self j bs rfl
      · rw [placed_append, next, map_append, heq, flatten_cons]

theorem exists_forms {i : Instruction LabelId} {es : List (CodeEvent LabelId)}
    (h : Traced p r q (.instruction i :: es) is) :
    ∃ new, i.Forms p r q new ∧ stop q new ≤ stop q is := by
  cases h with
  | @cons _ _ _ new items here rest =>
    cases here with
    | instruction here => exact ⟨new, here, by rw [stop_append]; exact le_stop ..⟩

theorem le_stop_of_jump {l : LabelId} (h : Instruction.Forms p r q (.jump (op : Int) l) is) :
    q + 3 ≤ stop q is ∧ (op = 200 ∨ op = 201 → q + 5 ≤ stop q is) := by
  rcases h.jump_cases with ⟨hop, rfl⟩ | ⟨-, rfl⟩ | ⟨-, rfl, -⟩ | ⟨_, _, hcond, -, -, rfl, -⟩
  · have := branch_iff.1 hop
    exact ⟨Nat.le_refl _, by omega⟩
  · exact ⟨Nat.le_add_right _ 2, fun _ => Nat.le_refl _⟩
  · exact ⟨Nat.le_add_right _ 2, fun _ => Nat.le_refl _⟩
  · exact ⟨Nat.le_add_right _ 5, fun _ => Nat.le_add_right _ 3⟩

/-- What is written for an instruction is no shorter than the instruction was, up to the alignment
of switches. -/
theorem le_stop_of_retaken {i : Item} {t : LabelId → Int} (hp : p.Wf) (hi : i.Sound p)
    (h : Traced p r q (retaken f (o, ⟨i.reads t o, i.size o, i.isPending r₀ o⟩)) is) (hq : o ≤ q) :
    o + i.size o ≤ stop q is := by
  cases i with
  | fixed j bs =>
    have hspelled : ((j.mapTargets t).mapTargets f).Spelled p bs :=
      (spelled_mapTargets f).2 ((spelled_mapTargets _).2 hi.2)
    obtain rfl := (forms_single h).eq_of_spelled hspelled hp
    rw [size_fixed, stop, stop, size_fixed]
    omega
  | short op l =>
    have hshort : ∃ (op' : Nat) (l' : LabelId) (new : List Item),
        Instruction.Forms p r q (.jump (op' : Int) l') new ∧ stop q new ≤ stop q is := by
      have hop : ((op : Nat) : Int) ≠ 200 := by
        have := branch_iff.1 hi
        omega
      simp only [retaken, reads, Decoded.rewritten] at h
      split at h
      next op' t' hpend hjump =>
        obtain ⟨rfl, rfl⟩ := jump.inj hjump
        rw [if_neg hop] at h
        split at h
        · obtain ⟨new, hnew, hle⟩ := exists_forms h
          exact ⟨op + 33, _, new, hnew, hle⟩
        next hgoto =>
          obtain ⟨op', hop', -⟩ := IsCondition.invert ⟨hi, by omega, by omega⟩
          obtain ⟨new, hnew, hle⟩ := exists_forms h
          exact ⟨op', _, new, hop' ▸ hnew, hle⟩
      next =>
        obtain ⟨new, hnew, hle⟩ := exists_forms h
        exact ⟨op, _, new, hnew, hle⟩
    obtain ⟨op', l', new, hnew, hle⟩ := hshort
    have := (le_stop_of_jump hnew).1
    rw [size_short]
    omega
  | wide op l =>
    have hwide : ∃ (op' : Nat) (l' : LabelId), (op' = 200 ∨ op' = 201) ∧
        Instruction.Forms p r q (.jump (op' : Int) l') is := by
      by_cases hop : op = 220
      · subst hop
        exact ⟨200, _, .inl rfl, forms_single h⟩
      · simp only [retaken, reads, isPending, if_neg hop, decide_eq_false hop,
          Decoded.rewritten] at h
        exact ⟨op, _, by rcases hi with h | h | h <;> omega, forms_single h⟩
    obtain ⟨op', l', hop', h⟩ := hwide
    have := (le_stop_of_jump h).2 hop'
    rw [size_wide]
    omega
  | skip op =>
    have := (le_stop_of_jump (forms_single h)).1
    rw [size_skip]
    omega
  | table low high fallback targets =>
    have hforms := forms_single h
    cases hforms with
    | fixed hs => exact hs.elim
    | table =>
      rw [stop, stop, size_table, size_table, length_map, length_map]
      simp only [padding]
      omega
  | lookup fallback keys targets =>
    have hforms := forms_single h
    cases hforms with
    | fixed hs => exact hs.elim
    | lookup =>
      rw [stop, stop, size_lookup _ _ hi.2.1, size_lookup _ _ (by simpa using hi.2.1), length_map,
        length_map]
      simp only [padding]
      omega

theorem Laid.le_stop {items₀ items : List Item} {pos : LabelId → Nat} {ds : List (Nat × Decoded)}
    (hp : p.Wf) (hsound : ∀ i ∈ items₀, i.Sound p)
    (hread : Forall₂ (Read r₀ pos) (placed o items₀) ds) (h : Laid p r f φ o ds items)
    (ho : o ≤ φ o) : stop o items₀ ≤ stop (φ o) items := by
  induction items₀ generalizing o ds items with
  | nil => exact Nat.le_trans ho (le_stop ..)
  | cons i items₀ ih =>
    obtain ⟨y, ds, hy, hrest, rfl⟩ := forall₂_cons_left_iff.1 hread
    cases h with
    | @cons _ d _ is items here next rest =>
      obtain ⟨-, t, rfl, -⟩ := hy
      have hle := le_stop_of_retaken hp (hsound i mem_cons_self) here ho
      rw [stop_append, next]
      exact ih (fun j hj => hsound j (mem_cons_of_mem i hj)) hrest rest (next ▸ hle)

end

end Machine

namespace Item

theorem exists_split_placed {items : List Item} {o : Nat} {x : Nat × Item}
    (hx : x ∈ placed o items) :
    ∃ before behind, items = before ++ x.2 :: behind ∧ stop o before = x.1 := by
  induction items generalizing o with
  | nil => cases hx
  | cons i is ih =>
    rcases mem_cons.1 hx with rfl | hx
    · exact ⟨[], is, rfl, rfl⟩
    · obtain ⟨before, behind, rfl, hstop⟩ := ih hx
      exact ⟨i :: before, behind, rfl, hstop⟩

theorem next_mem_bounds {items : List Item} {x : Nat × Item} (hx : x ∈ placed 0 items) :
    x.1 + x.2.size x.1 ∈ bounds items := by
  obtain ⟨before, behind, rfl, hstop⟩ := exists_split_placed hx
  rw [bounds, placed_append, stop_append, hstop, placed, map_append, map_cons,
    append_assoc, cons_append]
  exact mem_append_right _ (mem_cons_of_mem _ (start_mem_placed _ _))

end Item

/-- The targets of what stands for an instruction: its own, and the next instruction for a
condition that is inverted. -/
theorem Machine.target_of_mem_rewritten {o : Nat} {d : Decoded} {j : Instruction Int}
    (hj : j ∈ d.rewritten o) {t : Int} (ht : t ∈ j.targets) :
    t ∈ d.instruction.targets ∨
      t = (o + 3 : Nat) ∧ d.isPending = true ∧ ∃ op t', d.instruction = .jump op t' ∧ op ≠ 200 := by
  obtain ⟨i, n, b⟩ := d
  unfold Decoded.rewritten at hj
  split at hj
  next op t' hb hi =>
    dsimp only at hb hi
    subst hb hi
    split at hj
    · obtain rfl := mem_singleton.1 hj
      exact .inl ht
    next hop =>
      split at hj
      · obtain rfl := mem_singleton.1 hj
        exact .inl ht
      · rcases mem_pair.1 hj with rfl | rfl
        · exact .inr ⟨mem_singleton.1 ht, rfl, op, t', rfl, hop⟩
        · exact .inl ht
  next =>
    obtain rfl := mem_singleton.1 hj
    exact .inl ht

theorem Item.target_of_mem_reads {p : Pool} {i : Item} (hi : i.Sound p) {s : LabelId → Int}
    {o : Nat} {t : Int} (ht : t ∈ (i.reads s o).targets) :
    (∃ l ∈ i.labels, t = s l) ∨ ∃ op, i = .skip op ∧ t = (o + 8 : Nat) := by
  cases i with
  | fixed j bs =>
    rw [reads, targets_mapTargets, hi.2.targets_eq] at ht
    cases ht
  | short op l | wide op l => exact .inl ⟨l, mem_singleton_self l, mem_singleton.1 ht⟩
  | skip op => exact .inr ⟨op, rfl, mem_singleton.1 ht⟩
  | table low high fallback targets | lookup fallback keys targets =>
    rcases mem_cons.1 ht with rfl | ht
    · exact .inl ⟨fallback, mem_cons_self, rfl⟩
    · obtain ⟨l, hl, rfl⟩ := mem_map.1 ht
      exact .inl ⟨l, mem_cons_of_mem _ hl, rfl⟩

namespace Method

variable {own own' : LabelId → Prop} {items₀ items : List Item} {u v : State}

theorem Done.bytes_of_fixed (h : Done own items u) {x : Nat × Item} (hx : x ∈ placed 0 items)
    {j : Instruction LabelId} {bs : List UInt8} (hj : x.2 = .fixed j bs) :
    (u.2.code.toList.drop x.1).take bs.length = bs := by
  obtain ⟨before, behind, rfl, hstop⟩ := exists_split_placed hx
  rw [h.code, ← hstop, drop_layout, hj]
  simp [pieces, Piece.encodeAll, Piece.encode]

theorem Done.target_mem_bounds (h : Done own items u) {x : Nat × Item} (hx : x ∈ placed 0 items)
    {j : Instruction Int} (hj : j ∈ (readAt u.1.2.positions x).2.rewritten x.1) {t : Int}
    (ht : t ∈ j.targets) : ∃ b ∈ bounds items, t = (b : Nat) := by
  have hi := h.sound _ (mem_of_mem_placed hx)
  rcases target_of_mem_rewritten hj ht with ht | ⟨rfl, hpend, op, t', hjump, hop⟩
  · rcases target_of_mem_reads hi ht with ⟨l, hl, rfl⟩ | ⟨op, hskip, rfl⟩
    · obtain ⟨hown, -⟩ := h.targets _ (mem_of_mem_placed hx) l hl
      refine ⟨_, h.bounded l hown, ?_⟩
      rw [target, h.position_eq (mem_of_mem_placed hx) hl, Option.getD_some]
    · exact ⟨_, h.skips x hx op hskip, rfl⟩
  · refine ⟨_, ?_, rfl⟩
    have hnext := next_mem_bounds hx
    obtain ⟨o, i⟩ := x
    cases i with
    | short op l => exact hnext
    | wide op' l =>
      obtain rfl : op' = 220 := of_decide_eq_true hpend
      obtain ⟨rfl, -⟩ := jump.inj hjump
      exact absurd rfl hop
    | _ => cases hpend

theorem Done.offsets_eq (h : Done own items u) :
    offsets u.2.code.toList ((placed 0 items).map (readAt u.1.2.positions)) = bounds items := by
  rw [offsets, bounds, map_map]
  refine congrArg₂ _ rfl ?_
  rw [← h.codeSize]
  exact congrArg (fun n => [n]) Array.length_toList

/-- A method that takes what stands for the instructions of another one has its code, written
again. -/
theorem Done.widensOnce (hu : Done own items₀ u) (hv : Done own' items v) (hwf : v.1.1.Wf)
    (hext : u.1.1.Extends v.1.1) (hlimit : v.2.code.size ≤ 65535) {at_ : Int → List (CodeEvent Int)}
    {f : Int → LabelId} {ds : List (Nat × Decoded)} {es : List (CodeEvent Int)}
    (hds : Disassembles u.1.1 u.2.code.toList 0 ds) (hbody : Body at_ ds es)
    (hat : ∀ b, ∀ e ∈ at_ b, e.isInstruction = false)
    (htraced : CodeEvent.Traced v.1.1 v.1.2.positions 0
      ((es ++ at_ u.2.code.size).map (CodeEvent.mapTargets f)) items)
    (hlabels : ∀ x ∈ ds, ∀ j ∈ x.2.rewritten x.1, ∀ t ∈ j.targets, .label t ∈ at_ t) :
    u.2.code.size ≤ 65535 ∧ ∃ φ : Nat → Nat,
      WidensOnce φ u.2.code.toList v.2.code.toList ds
        ((placed 0 items).map (readAt v.1.2.positions)) ∧
      ∀ b ∈ bounds items₀, ∀ t, .label t ∈ at_ b → v.1.2.positions (f t) = some (φ b) := by
  have hlength : u.2.code.toList.length = u.2.code.size := Array.length_toList
  obtain ⟨ds', hds', hread⟩ := hu.disassembles
  obtain rfl := hds.unique hds'
  have hpos : ∀ x ∈ ds, 0 < x.2.length := by
    intro x hx
    obtain ⟨y, hy, -, t, hxy, -⟩ := exists_of_forall₂ hread hx
    rw [hxy]
    exact size_pos (hu.sound _ (mem_of_mem_placed hy)) _
  have hsound : ∀ i ∈ items₀, i.Sound v.1.1 := fun i hi => (hu.sound i hi).mono hext
  obtain ⟨φ, hzero, hlast, hlaid, hmono, hlab⟩ :=
    exists_laid hds hpos hbody hat (by rwa [hlength]) hv.sound
  -- the new code is no shorter than the old one
  have hlimit₀ : u.2.code.size ≤ 65535 := by
    have hle := hlaid.le_stop hwf hsound hread (Nat.zero_le _)
    rw [hzero, ← hv.codeSize] at hle
    exact Nat.le_trans (hu.codeSize ▸ hle) hlimit
  obtain rfl := hds.unique (hu.reads hlimit₀)
  rw [hu.offsets_eq] at hmono hlab
  refine ⟨hlimit₀, φ, ⟨?_, ?_, hzero, ?_⟩, hlab⟩
  · have hpieces := hlaid.rewritten hwf hsound
      (fun x hx j hj t ht => ?_) (fun x hx j bs hj => hu.bytes_of_fixed hx hj)
      (fun x hx j bs hj => hv.bytes_of_fixed (hzero ▸ hx) hj)
    · rwa [hzero] at hpieces
    · obtain ⟨b, hb, rfl⟩ := hu.target_mem_bounds hx hj ht
      have hlabel := hlabels (readAt u.1.2.positions x) (mem_map_of_mem hx) j hj _ ht
      exact ⟨b, rfl, hlab b hb _ hlabel,
        hmono _ (mem_append_left _ (mem_map_of_mem hx)) b hb⟩
  · rw [hu.offsets_eq]
    exact hmono
  · rw [hlast, ← hv.codeSize]
    exact Array.length_toList.symm

end Method

end ClassAssembler
