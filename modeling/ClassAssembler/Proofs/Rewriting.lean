import ClassAssembler.Proofs.Rereading
import ClassAssembler.Proofs.Steady

/-!
# Methods with wide jumps

A complete method that is read and taken again is complete, and what its header says stays
(`Method.Rewrites`).  If the new code is not too long, it is the old one with its instructions at
new offsets and its exception ranges moved along.
-/

namespace ClassAssembler

open Machine Item List CodeEvent Checked Except

variable {n : Nat}

namespace SessionM

variable {s t : Pool × Session}

theorem ends_getPool {p : Pool} : Ends (getThe Pool : SessionM Pool) s p t ↔ s.1 = p ∧ s = t := by
  rw [ends_getThe_lift, ends_pool_getThe, Prod.ext_iff, and_assoc]

theorem ends_checked {α : Type} {x : Checked α} {a : α} :
    Ends (liftM x : SessionM α) s a t ↔ x = .ok a ∧ s = t := by
  rw [ends_lift, ClassAssembler.ends_checked, Prod.ext_iff, and_assoc]

end SessionM

namespace CodeEvent

variable {T U : Type} (f : T → U) (e : CodeEvent T)

@[simp] theorem isRange_mapTargets : (e.mapTargets f).isRange = e.isRange := by
  cases e <;> rfl

@[simp] theorem isInstruction_mapTargets : (e.mapTargets f).isInstruction = e.isInstruction := by
  cases e <;> rfl

end CodeEvent

/-! ## Reading -/

theorem Instruction.counted_mapTargets {T U : Type} (f : T → U) (i : Instruction T) :
    (i.mapTargets f).Counted ↔ i.Counted := by
  cases i <;> exact Iff.rfl

theorem CodeEvent.counted_mapTargets {T U : Type} (f : T → U) (e : CodeEvent T) :
    (e.mapTargets f).Counted ↔ e.Counted := by
  cases e with
  | instruction i => exact Instruction.counted_mapTargets f i
  | _ => exact Iff.rfl

theorem Pool.lt_of_mem_wordsOf {bs : List UInt8} (h : n ∈ wordsOf bs) : n < 65536 := by
  fun_induction wordsOf bs with
  | case1 high low rest ih =>
    rcases mem_cons.1 h with rfl | h
    · have := high.toNat_lt
      have := low.toNat_lt
      omega
    · exact ih h
  | case2 => cases h

theorem Pool.length_bootstrapWords {ws : List Nat} {h : Nat} {args : List Nat}
    (hws : ∀ w ∈ ws, w < 65536) (e : bootstrapWords n ws = .ok (h, args)) :
    args.length < 65536 := by
  fun_induction bootstrapWords n ws with
  | case1 => cases e
  | case2 handle count rest hlen =>
    obtain ⟨-, rfl⟩ := Prod.mk.inj (ok.inj e)
    have := hws count (by simp)
    rw [length_take]
    omega
  | case3 n x count rest ih =>
    exact ih (fun w hw => hws w (by simp [mem_of_mem_drop hw])) e
  | case4 => cases e

theorem Pool.length_bootstrapAt {p : Pool} {h : Handle} {args : List Value}
    (e : p.bootstrapAt n = .ok (h, args)) : args.length < 65536 := by
  obtain ⟨⟨i, is⟩, hwords, e⟩ := bind_eq_ok.1 e
  obtain ⟨c, -, e⟩ := bind_eq_ok.1 e
  split at e
  · obtain ⟨vs, hvs, e⟩ := bind_eq_ok.1 e
    obtain ⟨-, rfl⟩ := Prod.mk.inj (ok.inj e)
    rw [← (forall₂_of_mapM hvs).length_eq]
    exact length_bootstrapWords (fun w hw => lt_of_mem_wordsOf hw) hwords
  · cases e

namespace Code

variable {c : Code} {p : Pool} {o : Int} {step : DecodedStep}

theorem counted_decodeJump {op : Nat} (h : c.decodeJump o op = .ok step) :
    ∀ j ∈ step.instructions, j.Counted := by
  simp only [decodeJump] at h
  split at h
  · obtain ⟨d, -, h⟩ := bind_eq_ok.1 h
    obtain rfl := ok.inj h
    simp [Instruction.Counted]
  · obtain ⟨d, -, h⟩ := bind_eq_ok.1 h
    split at h
    all_goals
      obtain rfl := ok.inj h
      simp [Instruction.Counted]

theorem counted_decodeWideJump {op : Nat} (h : c.decodeWideJump o op = .ok step) :
    ∀ j ∈ step.instructions, j.Counted := by
  obtain ⟨d, -, h⟩ := bind_eq_ok.1 h
  dsimp only at h
  split at h
  all_goals
    obtain rfl := ok.inj h
    simp [Instruction.Counted]

theorem counted_decodeWide (h : c.decodeWide o = .ok step) :
    ∀ j ∈ step.instructions, j.Counted := by
  obtain ⟨op, -, h⟩ := bind_eq_ok.1 h
  obtain ⟨slot, -, h⟩ := bind_eq_ok.1 h
  split at h
  · obtain ⟨amount, -, h⟩ := bind_eq_ok.1 h
    obtain rfl := ok.inj h
    simp [Instruction.Counted]
  · obtain rfl := ok.inj h
    simp [Instruction.Counted]

theorem counted_decodeTableSwitch (h : c.decodeTableSwitch o = .ok step) :
    ∀ j ∈ step.instructions, j.Counted := by
  obtain ⟨fallback, -, h⟩ := bind_eq_ok.1 h
  obtain ⟨low, -, h⟩ := bind_eq_ok.1 h
  obtain ⟨high, -, h⟩ := bind_eq_ok.1 h
  dsimp only at h
  split at h
  · cases h
  · obtain ⟨rows, -, h⟩ := bind_eq_ok.1 h
    obtain rfl := ok.inj h
    simp [Instruction.Counted]

theorem counted_decodeLookupSwitch (h : c.decodeLookupSwitch o = .ok step) :
    ∀ j ∈ step.instructions, j.Counted := by
  obtain ⟨fallback, -, h⟩ := bind_eq_ok.1 h
  obtain ⟨n, -, h⟩ := bind_eq_ok.1 h
  dsimp only at h
  split at h
  · cases h
  · obtain ⟨keys, -, h⟩ := bind_eq_ok.1 h
    obtain ⟨rows, -, h⟩ := bind_eq_ok.1 h
    obtain rfl := ok.inj h
    simp [Instruction.Counted]

theorem counted_decodeAt (h : c.decodeAt p o = .ok step) : ∀ j ∈ step.instructions, j.Counted := by
  obtain ⟨op, -, h⟩ := bind_eq_ok.1 h
  obtain ⟨format, -, h⟩ := bind_eq_ok.1 h
  cases format with
  | label => exact counted_decodeJump h
  | wideLabel => exact counted_decodeWideJump h
  | wide => exact counted_decodeWide h
  | tableSwitch => exact counted_decodeTableSwitch h
  | lookupSwitch => exact counted_decodeLookupSwitch h
  | dynamic =>
    obtain ⟨i, -, h⟩ := bind_eq_ok.1 h
    obtain ⟨site, -, h⟩ := bind_eq_ok.1 h
    obtain ⟨⟨method, args⟩, hargs, h⟩ := bind_eq_ok.1 h
    obtain rfl := ok.inj h
    simp [Instruction.Counted, Pool.length_bootstrapAt hargs]
  | plain | implicitVar =>
    obtain rfl := ok.inj h
    simp [Instruction.Counted, decodeImplicit]
  | var | byte | short =>
    obtain ⟨x, -, h⟩ := bind_eq_ok.1 h
    obtain rfl := ok.inj h
    simp [Instruction.Counted]
  | _ =>
    obtain ⟨x, -, h⟩ := bind_eq_ok.1 h
    obtain ⟨y, -, h⟩ := bind_eq_ok.1 h
    first
      | obtain rfl := ok.inj h
        simp [Instruction.Counted]
      | obtain ⟨z, -, h⟩ := bind_eq_ok.1 h
        obtain rfl := ok.inj h
        simp [Instruction.Counted]

theorem counted_decodeFrom {n : Nat} {acc steps : Array (Int × DecodedStep)}
    (h : c.decodeFrom p n o acc = .ok steps)
    (hacc : ∀ x ∈ acc, ∀ j ∈ x.2.instructions, j.Counted) :
    ∀ x ∈ steps, ∀ j ∈ x.2.instructions, j.Counted := by
  induction n generalizing o acc with
  | zero =>
    obtain rfl := ok.inj h
    exact hacc
  | succ n ih =>
    rw [decodeFrom] at h
    split at h
    · obtain rfl := ok.inj h
      exact hacc
    · obtain ⟨step, hstep, h⟩ := bind_eq_ok.1 h
      refine ih h fun x hx => ?_
      rcases Array.mem_push.1 hx with hx | rfl
      · exact hacc x hx
      · exact counted_decodeAt hstep

end Code

namespace Method

theorem counted_codeEvents {insertsFrames : Bool} {at_ : Int → List (CodeEvent Int)}
    {steps : List (Int × DecodedStep)} {frames : List TableFrame} {wantsFrame : Bool}
    {acc : Array (CodeEvent Int)} (hat : ∀ b, ∀ e ∈ at_ b, e.Counted)
    (hsteps : ∀ x ∈ steps, ∀ j ∈ x.2.instructions, j.Counted) (hacc : ∀ e ∈ acc, e.Counted) :
    ∀ e ∈ codeEvents insertsFrames at_ steps frames wantsFrame acc, e.Counted := by
  induction steps generalizing frames wantsFrame acc with
  | nil => exact hacc
  | cons x steps ih =>
    obtain ⟨o, step⟩ := x
    obtain ⟨given, rest, -, -, heq⟩ :=
      codeEvents_cons insertsFrames at_ o step steps frames wantsFrame acc
    rw [heq]
    refine ih (fun x hx => hsteps x (mem_cons_of_mem _ hx)) fun e he => ?_
    rcases Array.mem_append.1 he with he | he
    · exact hacc e he
    rw [mem_toArray] at he
    rcases mem_append.1 he with he | he
    · exact hat _ e he
    rcases mem_append.1 he with he | he
    · obtain ⟨⟨g, rfl⟩, -⟩ := target_of_mem_frameEvents he
      trivial
    · obtain ⟨j, hj, rfl⟩ := mem_map.1 he
      exact hsteps _ mem_cons_self j hj

theorem counted_reread {m : Method} {pool : Pool} {s : Session} {insertsFrames : Bool}
    {offsets : List Int} {events : List (CodeEvent Int)}
    (h : m.reread pool s insertsFrames = .ok (offsets, events)) : ∀ e ∈ events, e.Counted := by
  simp only [reread] at h
  obtain ⟨steps, hsteps, h⟩ := bind_eq_ok.1 h
  obtain ⟨frames, -, h⟩ := bind_eq_ok.1 h
  obtain ⟨handlers, hhandlers, h⟩ := bind_eq_ok.1 h
  split at h
  · cases h
  obtain ⟨named, hnamed, h⟩ := bind_eq_ok.1 h
  obtain ⟨rfl, rfl⟩ := Prod.mk.inj (ok.inj h)
  have hlabel : ∀ (isLabel : Int → Bool) b, ∀ e ∈ labelEvents isLabel m.linesByOffset b,
      e.Counted := by
    intro isLabel b e he
    obtain ⟨-, rfl | ⟨n, rfl⟩⟩ := of_mem_labelEvents he <;> trivial
  intro e he
  simp only [mem_append, mem_singleton] at he
  rcases he with ((((he | he) | he) | he) | he) | rfl
  · obtain ⟨row, -, caught, rfl, -⟩ := exists_of_forall₂ (rangeEvents hhandlers) he
    trivial
  · split at he
    · obtain rfl := mem_singleton.1 he
      trivial
    · cases he
  · refine counted_codeEvents (hlabel _) (fun x hx => ?_) (by simp) e (Array.mem_toList_iff.1 he)
    exact Code.counted_decodeFrom hsteps (by simp) x (Array.mem_toList_iff.1 hx)
  · exact hlabel _ _ e he
  · obtain ⟨row, -, name, desc, signature, -, -, -, rfl⟩ :=
      exists_of_forall₂ (variableRows hnamed) he
    trivial
  · trivial

end Method

namespace Method

variable {m' : Method} {t : Pool × Session}

/-- A complete method is written again, with labels of its own. -/
structure Rewrites (items items' : List Item) (u v : State) : Prop where
  done : Done (fun l => u.1.2.labels.size ≤ l ∧ l < v.1.2.labels.size) items' v
  wf : v.1.1.Wf
  extends_ : u.1.1.Extends v.1.1
  size : u.1.2.labels.size ≤ v.1.2.labels.size
  others : ∀ l < u.1.2.labels.size, v.1.2.spot l = u.1.2.spot l
  header : v.2.header = u.2.header
  moved : v.2.code.size ≤ 65535 → u.2.code.size ≤ 65535 ∧ ∃ φ,
    WidensOnce φ u.2.code.toList v.2.code.toList ((placed 0 items).map (readAt u.1.2.positions))
      ((placed 0 items').map (readAt v.1.2.positions)) ∧ HandlersMoved φ u v

section

variable {m : Method} {pool : Pool} {s : Session} {ds : List (Nat × Decoded)}
  {offsets : List Int} {events : List (CodeEvent Int)} {at_ : Int → List (CodeEvent Int)}
  {handlers first code named : List (CodeEvent Int)}

variable {e : CodeEvent Int}

/-- The events that are read, without the one that ends the code. -/
def readEvents (m : Method) (at_ : Int → List (CodeEvent Int))
    (handlers first code named : List (CodeEvent Int)) : List (CodeEvent Int) :=
  handlers ++ (first ++ ((code ++ at_ m.code.size) ++ named))

theorem mem_readEvents :
    e ∈ readEvents m at_ handlers first code named ↔
      e ∈ handlers ∨ e ∈ first ∨ e ∈ code ∨ e ∈ at_ m.code.size ∨ e ∈ named := by
  simp [readEvents]

variable (h : Reread m pool s ds offsets events at_ handlers first code named)

include h

theorem Reread.of_mem_handlers (he : e ∈ handlers) : e.isRange = true ∧ e.isInstruction = false ∧
      ∀ t ∈ e.targets, t ∈ offsets := by
  obtain ⟨row, hrow, caught, rfl, -⟩ := exists_of_forall₂ h.ranges he
  have hrow' := Array.mem_toList_iff.1 hrow
  refine ⟨rfl, rfl, fun t ht => ?_⟩
  simp only [CodeEvent.targets, mem_cons, not_mem_nil, or_false] at ht
  rcases ht with rfl | rfl | rfl
  · exact h.places row hrow' _ (by simp)
  · exact h.places row hrow' _ (by simp)
  · exact h.places row hrow' _ (by simp)

theorem Reread.of_mem_named (he : e ∈ named) : e.isVariable = true ∧ e.isInstruction = false ∧
      ∀ t ∈ e.targets, t ∈ offsets := by
  obtain ⟨row, hrow, name, desc, signature, -, -, -, rfl⟩ := exists_of_forall₂ h.rows he
  have hrow' := Array.mem_toList_iff.1 hrow
  refine ⟨rfl, rfl, fun t ht => ?_⟩
  simp only [CodeEvent.targets, mem_cons, not_mem_nil, or_false] at ht
  rcases ht with rfl | rfl
  · exact (h.locals row hrow').1
  · exact (h.locals row hrow').2

theorem Reread.of_mem_at {b : Int} (he : e ∈ at_ b) :
    e.isInstruction = false ∧ (e.isRange = false ∧ e.isVariable = false) ∧
      ∀ t ∈ e.targets, t ∈ offsets := by
  obtain ⟨isLabel, hlabel, rfl⟩ := h.labels
  refine ⟨isInstruction_of_mem_labelEvents he, kinds_of_mem_labelEvents he, fun t ht => ?_⟩
  obtain ⟨rfl, hb⟩ := target_of_mem_labelEvents he ht
  exact (hlabel _).1 hb

theorem Reread.target_mem (he : e ∈ readEvents m at_ handlers first code named) {t : Int}
    (ht : t ∈ e.targets) : t ∈ offsets := by
  rcases mem_readEvents.1 he with he | he | he | he | he
  · exact (h.of_mem_handlers he).2.2 t ht
  · rw [(h.entry e he).2] at ht
    cases ht
  · exact h.targets e he t ht
  · exact (h.of_mem_at he).2.2 t ht
  · exact (h.of_mem_named he).2.2 t ht

theorem Reread.of_mem_code (he : e ∈ code) : e.isRange = false ∧ e.isVariable = false := by
  rcases h.body.cases_of_mem he with ⟨b, he⟩ | ⟨g, rfl⟩ | ⟨x, -, j, -, rfl⟩
  · exact (h.of_mem_at he).2.1
  · exact ⟨rfl, rfl⟩
  · exact ⟨rfl, rfl⟩

theorem Reread.of_mem_first (he : e ∈ first) :
    e.isInstruction = false ∧ e.isRange = false ∧ e.isVariable = false ∧ e.isLine = false := by
  obtain ⟨⟨g, rfl⟩, -⟩ := h.entry e he
  exact ⟨rfl, rfl, rfl, rfl⟩

theorem Reread.regular (hds : ∀ x ∈ ds, ∀ j ∈ x.2.rewritten x.1, j.Regular)
    (he : e ∈ readEvents m at_ handlers first code named) : e.Regular := by
  have hsilent : e.isInstruction = false → e.Regular := by
    cases e with
    | instruction => nofun
    | _ => exact fun _ => trivial
  rcases mem_readEvents.1 he with he | he | he | he | he
  · exact hsilent (h.of_mem_handlers he).2.1
  · exact hsilent (h.of_mem_first he).1
  · exact h.body.regular (fun b e he => (h.of_mem_at he).1) hds e he
  · exact hsilent (h.of_mem_at he).1
  · exact hsilent (h.of_mem_named he).2.1

theorem Reread.not_maxs {b stack locals : Int} : .maxs stack locals ∉ at_ b := by
  intro he
  obtain ⟨isLabel, -, rfl⟩ := h.labels
  obtain ⟨-, he | ⟨n, he⟩⟩ := of_mem_labelEvents he <;> cases he

theorem Reread.ne_maxs (he : e ∈ readEvents m at_ handlers first code named) (stack locals : Int) :
    e ≠ .maxs stack locals := by
  rintro rfl
  rcases mem_readEvents.1 he with he | he | he | he | he
  · cases (h.of_mem_handlers he).1
  · obtain ⟨⟨g, hg⟩, -⟩ := h.entry _ he
    cases hg
  · rcases h.body.cases_of_mem he with ⟨b, he⟩ | ⟨g, hg⟩ | ⟨x, -, j, -, hj⟩
    · exact h.not_maxs he
    · cases hg
    · cases hj
  · exact h.not_maxs he
  · cases (h.of_mem_named he).1

theorem Reread.filter_isRange :
    (readEvents m at_ handlers first code named).filter isRange = handlers := by
  rw [readEvents, filter_append, filter_eq_self.2 fun e he => (h.of_mem_handlers he).1,
    filter_eq_nil_iff.2, append_nil]
  intro e he
  simp only [mem_append] at he
  rcases he with he | (he | he) | he
  · simp [(h.of_mem_first he).2.1]
  · simp [(h.of_mem_code he).1]
  · simp [(h.of_mem_at he).2.1.1]
  · have := (h.of_mem_named he).1
    cases e <;> simp_all [isVariable, isRange]

theorem Reread.traced {p : Pool} {r : Positions} {f : Int → LabelId} {items : List Item}
    (ht : CodeEvent.Traced p r 0
      ((readEvents m at_ handlers first code named).map (mapTargets f)) items) :
    CodeEvent.Traced p r 0 ((code ++ at_ m.code.size).map (mapTargets f)) items := by
  have hsilent : ∀ es : List (CodeEvent Int), (∀ e ∈ es, e.isInstruction = false) →
      ∀ e ∈ es.map (mapTargets f), e.isInstruction = false := by
    intro es hes e he
    obtain ⟨e, he', rfl⟩ := mem_map.1 he
    rw [isInstruction_mapTargets, hes e he']
  rw [readEvents, map_append, map_append, map_append] at ht
  obtain ⟨i₁, j₁, rfl, h₁, ht⟩ := ht.exists_append
  obtain ⟨rfl, -⟩ := h₁.of_silent (hsilent _ fun e he => (h.of_mem_handlers he).2.1)
  obtain ⟨i₂, j₂, rfl, h₂, ht⟩ := ht.exists_append
  obtain ⟨rfl, -⟩ := h₂.of_silent (hsilent _ fun e he => (h.of_mem_first he).1)
  obtain ⟨i₃, j₃, rfl, h₃, ht⟩ := ht.exists_append
  obtain ⟨rfl, -⟩ := ht.of_silent (hsilent _ fun e he => (h.of_mem_named he).2.1)
  rwa [nil_append, nil_append, append_nil]

end

/-! ## Complete methods -/

section

variable {own : LabelId → Prop} {items : List Item} {u v : State}

theorem Done.regular_rewritten (h : Done own items u) {ds : List (Nat × Decoded)}
    (hds : Disassembles u.1.1 u.2.code.toList 0 ds) :
    ∀ x ∈ ds, 0 < x.2.length ∧ ∀ j ∈ x.2.rewritten x.1, j.Regular := by
  obtain ⟨ds', hds', hread⟩ := h.disassembles
  obtain rfl := hds.unique hds'
  intro x hx
  obtain ⟨y, hy, hfst, t, hxy, -⟩ := exists_of_forall₂ hread hx
  have hsound := h.sound _ (mem_of_mem_placed hy)
  rw [hxy, ← hfst]
  exact ⟨size_pos hsound _, fun j hj => Machine.regular_rewritten hsound hj⟩

theorem Done.ended (h : Done own items u) : Done own items (u.1, { u.2 with isEnded := true }) :=
  ⟨⟨h.handlers, h.lines, h.locals, h.types⟩, h.code, h.sound, h.bounded, h.targets, h.ahead,
    h.pending, h.skips⟩

theorem Done.map_readAt (h : Done own items u) (hspot : ∀ l, own l → v.1.2.spot l = u.1.2.spot l) :
    (placed 0 items).map (readAt v.1.2.positions) =
    (placed 0 items).map (readAt u.1.2.positions) := by
  refine map_congr_left fun x hx => ?_
  have hi := mem_of_mem_placed hx
  have hr : ∀ l ∈ x.2.labels, v.1.2.positions l = u.1.2.positions l := by
    intro l hl
    simp only [Session.positions, hspot l (h.targets _ hi l hl).1]
  rw [readAt, readAt, isPending_congr hr,
    reads_congr (t := target u.1.2.positions) (fun l hl => by simp only [target, hr l hl]) x.1
      fun j bs hj => Sound.targets_eq (h.sound _ hi) hj]

theorem Done.rewritten {own' : LabelId → Prop} {items' : List Item} (hu : Done own items u)
    (hv : Done own' items' v) (hwf : v.1.1.Wf) (hext : u.1.1.Extends v.1.1)
    (hlimit : v.2.code.size ≤ 65535) {ds : List (Nat × Decoded)} {offsets : List Int}
    {events : List (CodeEvent Int)} {at_ : Int → List (CodeEvent Int)}
    {handlers first code named : List (CodeEvent Int)}
    (hds : Disassembles u.1.1 u.2.code.toList 0 ds)
    (h : Reread u.2 u.1.1 u.1.2 ds offsets events at_ handlers first code named)
    {f : Int → LabelId} {es : List (CodeEvent LabelId)}
    (hes : es = (readEvents u.2 at_ handlers first code named).map (mapTargets f))
    (htraced : CodeEvent.Traced v.1.1 v.1.2.positions 0 es items')
    (hranges : Forall₂ (CodeEvent.RangeRow v.1.1) (es.filter isRange)
      v.2.handlers.toList) :
    u.2.code.size ≤ 65535 ∧ ∃ φ,
      WidensOnce φ u.2.code.toList v.2.code.toList ((placed 0 items).map (readAt u.1.2.positions))
        ((placed 0 items').map (readAt v.1.2.positions)) ∧ HandlersMoved φ u v := by
  subst hes
  obtain ⟨isLabel, hlabel, hat⟩ := h.labels
  have hmem : ∀ o b : Int, .label o ∈ at_ b ↔ o = b ∧ b ∈ offsets := by
    intro o b
    rw [hat, label_mem_labelEvents, hlabel]
  obtain ⟨hlimit₀, φ, hwidens, hlab⟩ := hu.widensOnce hv hwf hext hlimit hds h.body
    (fun b e he => (h.of_mem_at he).1) (h.traced htraced)
    fun x hx j hj t ht => (hmem t t).2 ⟨rfl, h.jumps x hx j hj t ht⟩
  have hplace : ∀ b ∈ bounds items, (b : Int) ∈ offsets → v.1.2.positions (f b) = some (φ b) :=
    fun b hb ho => hlab b hb b ((hmem b b).2 ⟨rfl, ho⟩)
  obtain rfl := hds.unique (hu.reads hlimit₀)
  refine ⟨hlimit₀, φ, hwidens, ?_⟩
  rw [filter_map] at hranges
  refine moves_handlers hu hwf hext hplace h.places (h.filter_isRange ▸ h.ranges) ?_
  simpa [Function.comp_def] using hranges

end

theorem header_of_bare {m : Method}
    (h : { m'.bare with hasMaxs := true } = { m.bare with hasMaxs := true }) :
    m'.header = m.header :=
  (congrArg header h : header { m'.bare with hasMaxs := true } =
    header { m.bare with hasMaxs := true })

theorem numbered_empty (s : Session) : Numbered s.labels.size s {} :=
  ⟨fun o l h => by simp at h, fun o o' l h => by simp at h⟩

/-- A method without code that takes the header of another one. -/
structure Fresh (m fresh : Method) : Prop extends Blank fresh where
  code : fresh.code.toList = []
  hasPending : fresh.hasPending = false
  entry : fresh.entry = none
  lastBlock : fresh.lastBlock = none
  compute : fresh.compute ≠ .frames
  header : fresh.header = m.header
  mapping : fresh.mapping = ([], 0)

theorem ends_widened {m : Method} {s : Pool × Session} (e : Ends m.widened s m' t) :
    ∃ fresh opened s₁ offsets events labels s₂ written, Fresh m fresh ∧
      Ends MethodM.openCode (s, fresh) () (s₁, opened) ∧
      m.reread s₁.1 s₁.2 (50 ≤ s.2.major) = .ok (offsets, events) ∧
      Ends (allocate offsets {}) s₁ labels s₂ ∧
      Ends (MethodM.takeAll (events.map (mapTargets fun o => labels[o]?.getD 0)))
        (s₂, opened) () (t, written) ∧
      m' = { written with isEnded := true } := by
  rw [widened] at e
  obtain ⟨_, _, h, e⟩ := e.bind
  obtain ⟨rfl, rfl⟩ := ends_getThe.1 h
  obtain ⟨⟨_, opened⟩, s₁, hopen, e⟩ := e.bind
  obtain ⟨_, _, h, e⟩ := e.bind
  obtain ⟨rfl, rfl⟩ := SessionM.ends_getPool.1 h
  obtain ⟨_, _, h, e⟩ := e.bind
  obtain ⟨rfl, rfl⟩ := ends_getThe.1 h
  obtain ⟨⟨offsets, events⟩, _, h, e⟩ := e.bind
  obtain ⟨hreread, rfl⟩ := SessionM.ends_checked.1 h
  obtain ⟨labels, s₂, halloc, e⟩ := e.bind
  obtain ⟨⟨_, written⟩, s₃, htake, e⟩ := e.bind
  obtain ⟨rfl, rfl⟩ := e.pure
  refine ⟨_, opened, s₁, offsets, events, labels, s₂, written, ?_, ends_run.1 hopen, hreread,
    halloc, ends_run.1 htake, rfl⟩
  refine ⟨⟨rfl, rfl, rfl, rfl⟩, rfl, rfl, rfl, rfl, ?_, rfl, rfl⟩
  dsimp only
  split <;> nofun

theorem steady_widened {m : Method} {s : Pool × Session} (e : Ends m.widened s m' t) :
    s.1.Grows t.1 ∧ t.2.setting = s.2.setting ∧ m'.header = m.header ∧ m'.Mapped t.1 ∧
      (s.1.Wf → m'.Indexed t.1) := by
  obtain ⟨fresh, opened, s₁, offsets, events, labels, s₂, written, hfresh, hopen, hreread, halloc,
    htake, rfl⟩ := ends_widened e
  have hcounted : ∀ e ∈ events.map (mapTargets fun o => labels[o]?.getD 0), e.Counted := by
    intro e he
    obtain ⟨e, he', rfl⟩ := mem_map.1 he
    exact (counted_mapTargets _ e).2 (counted_reread hreread e he')
  have hopens : Steady (s, fresh) (s₁, opened) := hopen.keeps
  have halloc : Steady (s₁, opened) (s₂, opened) := by
    have := (ends_allocate (numbered_empty s₁.2) (Nat.le_refl _) halloc).1
    exact steady_of_record this.grows this.setting rfl rfl
  have htakes : Steady (s₂, opened) (t, written) :=
    (MethodM.steady_takeAll hcounted).run _ _ _ htake
  have hall := Steps.trans hopens (Steps.trans halloc htakes)
  refine ⟨hall.grows, hall.setting, hall.header.trans hfresh.header,
    hall.mapped (mapped_empty hfresh.mapping), fun hwf => ?_⟩
  have hi := hall.indexed hwf
    ⟨by simp [hfresh.handlers], by simp [hfresh.locals], by simp [hfresh.types]⟩
  exact ⟨hi.handlers, hi.locals, hi.localTypes⟩

theorem Opens.fresh {own : LabelId → Prop} {m : Method} {u v : State} (h : Opens own u v)
    (hu : Fresh m u.2) : v.2.Blank ∧ v.2.compute ≠ .frames ∧ v.2.header = m.header := by
  have hkeep {β : Type} (g : Method → β) := congrArg g h.outline
  refine ⟨⟨?_, ?_, ?_, ?_⟩, ?_, ?_⟩
  · exact (hkeep Method.handlers).trans hu.handlers
  · exact (hkeep Method.lineRows).trans hu.lines
  · exact (hkeep Method.localRows).trans hu.locals
  · exact (hkeep Method.localTypeRows).trans hu.types
  · exact fun hv => hu.compute ((hkeep Method.compute).symm.trans hv)
  · exact (hkeep Method.header).trans hu.header

theorem rewrites_widened {own : LabelId → Prop} {items : List Item} {m : Method}
    {s : Pool × Session} (hs : Done own items (s, m)) (hwf : s.1.Wf)
    (hown : ∀ l, own l → l < s.2.labels.size) (hfail : t.1.failure = none)
    (e : Ends m.widened s m' t) : ∃ items', Rewrites items items' (s, m) (t, m') := by
  obtain ⟨fresh, opened, s₁, offsets, events, labels, s₂, written, hfresh, hopen, hreread, halloc,
    htake, rfl⟩ := ends_widened e
  -- the first block is opened, with labels of its own from here on
  have hopens := opens_openCode (@emitted_nil (fun l => s.2.labels.size ≤ l) _ _ _ hwf (fun _ => id)
    (fun l hl => ⟨Session.spot_of_size_le hl, by simp [Session.next, Array.getElem?_eq_none hl]⟩)
    hfresh.code hfresh.hasPending hfresh.entry hfresh.lastBlock) hopen
  obtain ⟨hblank, hcompute, hheader⟩ := hopens.fresh hfresh
  have hs₁ : Done own items (s₁, m) := hs.frame hopens.extends_
    (fun l hl => ⟨hl, hopens.others l (Nat.not_le.2 (hown l hl))⟩) (fun l hl => .inl hl) rfl
  obtain ⟨ds, hds, -⟩ := hs₁.disassembles
  have hregular := hs₁.regular_rewritten hds
  obtain ⟨at_, handlers, first, code, named, hread⟩ := exists_reread hreread
    (Code.decode_eq hds fun x hx => (hregular x hx).1)
  -- every target gets a label
  obtain ⟨hsame, hnumbered, hlabels⟩ := ends_allocate (numbered_empty s₁.2) (Nat.le_refl _) halloc
  have htargets : ∀ o ∈ offsets, s.2.labels.size ≤ labels[o]?.getD 0 := by
    intro o ho
    obtain ⟨l, hl⟩ := Option.isSome_iff_exists.1
      (Std.HashMap.isSome_getElem?_iff_mem.2 (hlabels o (.inl ho)))
    rw [hl]
    exact Nat.le_trans hopens.size (hnumbered.range o l hl).1
  have hcalm : Calm (fun l => s.2.labels.size ≤ l) (s₁, opened) (s₂, opened) :=
    hsame.calm rfl rfl fun hm => hm.congr hsame.grows.onward rfl
  rw [hread.eq, map_append] at htake
  have hassembles := MethodM.assembles_takeAll (hopens.emitted.calm hcalm) hblank
    (fun e he => by
      obtain ⟨e, he', rfl⟩ := mem_map.1 he
      rw [regular_mapTargets]
      exact hread.regular (fun x hx => (hregular x hx).2) he')
    (fun e he l hl => by
      obtain ⟨e, he', rfl⟩ := mem_map.1 he
      rw [targets_mapTargets] at hl
      obtain ⟨o, ho, rfl⟩ := mem_map.1 hl
      exact htargets o (hread.target_mem he' ho))
    (fun e he stack locals => by
      obtain ⟨e, he', rfl⟩ := mem_map.1 he
      have := hread.ne_maxs he'
      cases e <;> simp_all [mapTargets])
    hfail htake
  obtain ⟨items', hclosed, htraced, hranges, -⟩ := hassembles.traced hcompute
  have hext : s₁.1.Extends t.1 := (hsame.grows hopens.emitted.wf).2.trans hassembles.extends_
  refine ⟨items', hclosed.toDone.ended, hclosed.wf, hopens.extends_.trans hext, ?_, ?_, ?_, ?_⟩
  · exact Nat.le_trans hopens.size (Nat.le_trans hsame.size hassembles.size)
  · intro l hl
    have hl' : ¬ s.2.labels.size ≤ l := Nat.not_le.2 hl
    exact (hassembles.others l hl').trans ((hsame.spot l).trans (hopens.others l hl'))
  · exact (header_of_bare hassembles.bare).trans hheader
  · intro hlimit
    obtain ⟨hlimit₀, φ, hwidens, hmoved⟩ :=
      hs₁.rewritten hclosed.toDone.ended hclosed.wf hext hlimit hds hread rfl htraced hranges
    have hspot : ∀ l, own l → s₁.2.spot l = s.2.spot l :=
      fun l hl => hopens.others l (Nat.not_le.2 (hown l hl))
    rw [hs.map_readAt (v := (s₁, m)) hspot] at hwidens
    refine ⟨hlimit₀, φ, hwidens, forall₂_mem hmoved fun a ha b hab => ?_⟩
    obtain ⟨hstart, hstop, hhandler, -⟩ := hs.handlers a (Array.mem_toList_iff.1 ha)
    exact ⟨hspot _ hstart ▸ hab.start, hspot _ hstop ▸ hab.stop, hspot _ hhandler ▸ hab.handler,
      hab.caught⟩

end Method

end ClassAssembler
