import ClassAssembler.Proofs.Taking
import ClassAssembler.Source.Basic

/-!
# Events of listings

What the text of a listing can be read as.  Every event has operands that its bytes can say, the
labels that are used are those of lines that define them, and in a listing without errors no two
lines define the same one (`Listing.listed_read`).  So every instruction whose lists fit their
counts is one that the machine has (`Listing.Listed.regular`).
-/

namespace ClassAssembler

open Machine List CodeEvent

/-- The lists of an instruction are no longer than their counts can say. -/
def Instruction.Fits {T : Type} : Instruction T → Prop
  | dynamic _ _ _ args => args.length < 65536
  | lookupSwitch _ keys _ => keys.length ≤ 0x7fffffff
  | _ => True

/-- The lists of an event are no longer than their counts can say. -/
def CodeEvent.Fits {T : Type} : CodeEvent T → Prop
  | instruction i => i.Fits
  | _ => True

def CodeEvent.IsListed {T : Type} : CodeEvent T → Prop
  | frame _ | maxs _ _ => False
  | _ => True

/-- The operation is one of the machine, and its operands are in the ranges of their bytes. -/
def Instruction.InRange {T : Type} : Instruction T → Prop
  | plain op => HasShape op .bare
  | push op v => op = 16 ∧ -128 ≤ v ∧ v ≤ 127 ∨ op = 17 ∧ -32768 ≤ v ∧ v ≤ 32767 ∨
      op = 188 ∧ 4 ≤ v ∧ v ≤ 11
  | var op slot => HasShape op .slot ∧ 0 ≤ slot ∧ slot ≤ 65535
  | type op _ => HasShape op .type
  | field op _ _ _ => HasShape op .field
  | invoke op _ _ _ _ => HasShape op .method ∨ op = 185
  | dynamic _ _ bootstrap _ => 1 ≤ bootstrap.kind ∧ bootstrap.kind ≤ 9
  | jump op _ => HasShape op .branch
  | constant _ => True
  | increment slot amount => 0 ≤ slot ∧ slot ≤ 65535 ∧ -32768 ≤ amount ∧ amount ≤ 32767
  | tableSwitch low high _ targets =>
    IsInt32 low ∧ IsInt32 high ∧ low ≤ high ∧ high - low + 1 = targets.length
  | lookupSwitch _ keys targets =>
    (∀ k ∈ keys, IsInt32 k) ∧ keys.Pairwise (· < ·) ∧ keys.length = targets.length
  | multiArray _ dims => 1 ≤ dims ∧ dims ≤ 255

def CodeEvent.InRange {T : Type} : CodeEvent T → Prop
  | instruction i => i.InRange
  | localVariable _ _ _ _ _ slot => 0 ≤ slot ∧ slot ≤ 65535
  | line number _ => 0 ≤ number ∧ number ≤ 65535
  | maxs stack locals => (0 ≤ stack ∧ stack ≤ 65535) ∧ 0 ≤ locals ∧ locals ≤ 65535
  | _ => True

def CodeEvent.constants {T : Type} : CodeEvent T → List Value
  | instruction (.constant v) => [v]
  | instruction (.dynamic _ _ _ args) => args
  | _ => []

def CodeEvent.placed? {T : Type} : CodeEvent T → Option T
  | label l => some l
  | _ => none

theorem CodeEvent.mem_filterMap_placed? {T : Type} {es : List (CodeEvent T)} {l : T} :
    l ∈ es.filterMap placed? ↔ .label l ∈ es := by
  rw [mem_filterMap]
  constructor
  · rintro ⟨e, he, hl⟩
    cases e <;> cases hl
    exact he
  · exact fun h => ⟨_, h, rfl⟩

def Opcode.Format.shape : Opcode.Format → Shape
  | plain => .bare
  | implicitVar => .fixedSlot
  | label => .branch
  | wideLabel => .wideBranch
  | wide => .wide
  | byte => .byte
  | short => .short
  | var => .slot
  | ldc => .constant8
  | ldcW => .constant16
  | field => .field
  | method => .method
  | interfaceMethod => .interfaceMethod
  | dynamic => .dynamic
  | type => .type
  | iinc => .increment
  | tableSwitch => .tableSwitch
  | lookupSwitch => .lookupSwitch
  | multiArray => .multiArray

namespace Listing

namespace Reading

/-- The sizes that a listing gives, as the event that they become. -/
def sizes (r : Reading) : CodeEvent Text := .maxs r.maxStack r.maxLocals

/-- Reading on changes no labels and takes back no error, and sizes stay in range. -/
structure Leads (r r' : Reading) : Prop where
  labels : r'.labels = r.labels
  errors : r.errors.size ≤ r'.errors.size
  sizes : r.sizes.InRange → r'.sizes.InRange

theorem Leads.refl (r : Reading) : r.Leads r := ⟨rfl, le_rfl, id⟩

theorem Leads.trans {r₁ r₂ r₃ : Reading} (h : r₁.Leads r₂) (h' : r₂.Leads r₃) : r₁.Leads r₃ :=
  ⟨h'.labels.trans h.labels, h.errors.trans h'.errors, fun hr => h'.sizes (h.sizes hr)⟩

theorem leads_report (r : Reading) (fault : LineFault) : r.Leads ((report fault).run r).2 where
  labels := rfl
  errors := by
    show r.errors.size ≤ (r.errors.push _).size
    simp
  sizes := id

end Reading

open Reading

/-- Whenever a part is read, with labels that are known, it has a property. -/
def Reads {α : Type} (L : Std.HashSet Text) (P : α → Prop) (p : PartM α) : Prop :=
  ∀ r : Reading, r.labels = L →
    r.Leads (p.run.run r).2 ∧ ∀ a, (p.run.run r).1 = some a → P a

section

variable {α β : Type} {L : Std.HashSet Text} {P : α → Prop} {Q : β → Prop}

variable {args ts : List Text} {op : Opcode}

theorem reads_pure {a : α} (h : P a) : Reads L P (pure a) :=
  fun r _ => ⟨.refl r, fun _ ha => Option.some.inj ha ▸ h⟩

theorem Reads.bind {p : PartM α} {f : α → PartM β} (hp : Reads L P p)
    (hf : ∀ a, P a → Reads L Q (f a)) : Reads L Q (p >>= f) := by
  intro r hr
  obtain ⟨hleads, hread⟩ := hp r hr
  have hrun : (p >>= f).run.run r =
      ((p.run.run r).1.elim (pure none) fun x => (f x).run).run (p.run.run r).2 := by
    rw [OptionT.run_bind, Option.elimM, StateT.run_bind]
    rfl
  rw [hrun]
  cases ha : (p.run.run r).1 with
  | none => exact ⟨hleads, nofun⟩
  | some a =>
    obtain ⟨hleads', hread'⟩ := hf a (hread a ha) _ (hleads.labels.trans hr)
    exact ⟨hleads.trans hleads', hread'⟩

theorem reads_failure : Reads L P (failure : PartM α) := fun r _ => ⟨.refl r, nofun⟩

theorem reads_report {fault : LineFault} : Reads L P (do (report fault : ReadM Unit); failure) :=
  fun r _ => ⟨r.leads_report fault, nofun⟩

theorem reads_refuse {fault : OperandFault} : Reads L P (refuse fault) := reads_report

theorem Reads.attempt {p : PartM α} (hp : Reads L P p) :
    Reads L (fun o => ∀ a, o = some a → P a) (attempt p) :=
  fun r hr => ⟨(hp r hr).1, fun _ ho => Option.some.inj ho ▸ (hp r hr).2⟩

theorem reads_require {o : Option α} (h : ∀ a, o = some a → P a) : Reads L P (require o) := by
  cases o with
  | none => exact reads_failure
  | some a => exact reads_pure (h a rfl)

theorem reads_requireAll {os : List (Option α)} (h : ∀ o ∈ os, ∀ a, o = some a → P a) :
    Reads L (fun as => as.length = os.length ∧ ∀ a ∈ as, P a) (requireAll os) := by
  induction os with
  | nil => exact reads_pure ⟨rfl, nofun⟩
  | cons o os ih =>
    obtain ⟨ho, hos⟩ := forall_mem_cons.1 h
    refine (reads_require ho).bind fun a ha => (ih hos).bind fun as has => reads_pure ?_
    exact ⟨congrArg (· + 1) has.1, forall_mem_cons.2 ⟨ha, has.2⟩⟩

theorem reads_label {name : Text} : Reads L (· ∈ L) (label name) := by
  intro r hr
  have hrun : (label name).run.run r =
    if r.labels.contains name then (pure name : PartM Text).run.run r
      else (do (report (.undefinedLabel name) : ReadM Unit); failure : PartM Text).run.run r := by
    show ((if r.labels.contains name then (pure name : PartM Text) else do
      (report (.undefinedLabel name) : ReadM Unit); failure).run.run r) = _
    split <;> rfl
  rw [hrun]
  split
  next h =>
    have hname : name ∈ L := by rwa [← hr]
    exact reads_pure hname r hr
  next => exact reads_report r hr

theorem reads_integer {t : Text} {low high : Int} :
    Reads L (fun v => low ≤ v ∧ v ≤ high) (integer t low high) := by
  rw [integer]
  split
  next v hv => exact reads_pure (by simpa using (Option.filter_eq_some_iff.1 hv).2)
  next => exact reads_refuse

theorem reads_labels :
    Reads L (fun os => os.length = ts.length ∧ ∀ o ∈ os, ∀ l, o = some l → l ∈ L) (labels ts) := by
  induction ts with
  | nil => exact reads_pure ⟨rfl, nofun⟩
  | cons t ts ih =>
    refine reads_label.attempt.bind fun o ho => ih.bind fun os hos => reads_pure ?_
    exact ⟨congrArg (· + 1) hos.1, forall_mem_cons.2 ⟨ho, hos.2⟩⟩

theorem readable_number {t : Text} : Reads L Value.Readable (number t) := by
  rw [number]
  split
  next => exact reads_pure fun c hc => by cases hc; rfl
  next =>
    split
    next =>
      split
      · exact reads_pure fun c hc => by cases hc; rfl
      · exact reads_refuse
    next =>
      split
      next => exact reads_pure fun c hc => by cases hc; rfl
      next =>
        split
        next => exact reads_pure fun c hc => by cases hc; rfl
        next => exact reads_refuse

theorem readable_ofName (name : Text) : (Value.type (.ofName name)).Readable := by
  intro c hc
  by_cases hhead : name.head? = some JavaType.bracket
  · have hof : JavaType.ofName name = ⟨.array, name⟩ := if_pos hhead
    rw [hof] at hc
    cases hc
    rw [valueOf?, hof]
  · obtain ⟨hsort, hname⟩ := JavaType.internalName_ofName name hhead
    simp only [Value.constant?, hsort, hname] at hc
    cases hc
    rfl

theorem readable_constant : Reads L Value.Readable (constant ts) := by
  match ts with
  | [] => exact reads_refuse
  | [t] =>
    unfold constant
    dsimp only
    split
    next => exact reads_refuse
    next b r =>
      split
      · split
        next v n _ =>
          split
          · exact reads_pure fun c hc => by cases hc; rfl
          · exact reads_refuse
        next => exact reads_refuse
      · exact readable_number
  | [word, t] =>
    unfold constant
    dsimp only
    split
    · exact reads_pure (readable_ofName t)
    · split
      · exact reads_pure fun c hc => by cases hc; rfl
      · exact reads_refuse
  | _ :: _ :: _ :: _ => exact reads_refuse

theorem readable_constants : Reads L (fun vs => ∀ v ∈ vs, v.Readable) (constants ts) := by
  fun_induction constants ts with
  | case1 => exact reads_pure nofun
  | case2 => exact reads_refuse
  | case3 t _ u us ih =>
    refine readable_constant.bind fun v hv => ih.bind fun vs hvs => reads_pure ?_
    exact forall_mem_cons.2 ⟨hv, hvs⟩
  | case4 t ts _ ih =>
    refine readable_constant.bind fun v hv => ih.bind fun vs hvs => reads_pure ?_
    exact forall_mem_cons.2 ⟨hv, hvs⟩

/-- What an event of a listing with labels is like. -/
structure Listed (L : Std.HashSet Text) (e : CodeEvent Text) : Prop where
  kind : e.IsListed
  inRange : e.InRange
  readable : ∀ v ∈ e.constants, v.Readable
  targets : ∀ t ∈ e.targets, t ∈ L

def ListedInstruction (L : Std.HashSet Text) (i : Instruction Text) : Prop :=
  Listed L (.instruction i)

theorem listed_of_inRange {i : Instruction Text} (h : i.InRange)
    (hconstants : (CodeEvent.instruction i).constants = [] := by rfl)
    (htargets : i.targets = [] := by rfl) : ListedInstruction L i where
  kind := trivial
  inRange := h
  readable := by simp [hconstants]
  targets := by simp [targets, htargets]

theorem Listed.regular {e : CodeEvent Text} (h : Listed L e) (hfits : e.Fits) : e.Regular := by
  have hrange := h.inRange
  have hread := h.readable
  cases e with
  | instruction i =>
    cases i with
    | push op v =>
      rcases hrange with ⟨rfl, hv⟩ | ⟨rfl, hv⟩ | ⟨rfl, hv⟩
      · exact .inl ⟨.inl rfl, hv⟩
      · exact .inr ⟨rfl, hv⟩
      · exact .inl ⟨.inr rfl, by omega, by omega⟩
    | dynamic => exact ⟨hfits, hread⟩
    | jump => exact .inl hrange
    | constant v => exact hread v mem_cons_self
    | lookupSwitch _ keys ts =>
      obtain ⟨hkeys, -, hlength⟩ := hrange
      exact ⟨hkeys, hlength, hlength ▸ hfits⟩
    | multiArray => exact ⟨by have := hrange.1; omega, hrange.2⟩
    | _ => exact hrange
  | _ => trivial

theorem reads_tableSwitch : Reads L (ListedInstruction L) (tableSwitch ts) := by
  unfold tableSwitch
  split
  next low high fallback cases =>
    refine reads_integer.attempt.bind fun lo? hlo => reads_integer.attempt.bind fun hi? hhi => ?_
    refine (reads_require hlo).bind fun lo hlo => (reads_require hhi).bind fun hi hhi => ?_
    split
    · exact reads_refuse
    next hrows =>
      refine reads_label.attempt.bind fun d? hd => reads_labels.bind fun ls hls => ?_
      refine (reads_require hd).bind fun d hd => (reads_requireAll hls.2).bind fun ts hts => ?_
      have hcount : ts.length = cases.length := hts.1.trans hls.1
      apply reads_pure
      constructor
      · trivial
      · refine ⟨?_, ?_, ?_, ?_⟩
        · unfold IsInt32; omega
        · unfold IsInt32; omega
        · omega
        · omega
      · nofun
      · exact forall_mem_cons.2 ⟨hd, hts.2⟩
  next => exact reads_refuse

theorem reads_switchCases {last : Option Int} :
    Reads L (fun cs => (∀ c ∈ cs, IsInt32 c.1 ∧ ∀ l, c.2 = some l → l ∈ L) ∧
      (cs.map Prod.fst).Pairwise (· < ·) ∧ ∀ k ∈ last, ∀ c ∈ cs, k < c.1)
        (switchCases ts last) := by
  induction ts generalizing last with
  | nil => exact reads_pure (by simp)
  | cons t ts ih =>
    rw [switchCases]
    split
    · exact reads_refuse
    next key target _ =>
      refine reads_integer.bind fun k hk => ?_
      split
      · exact reads_refuse
      next hlast =>
        refine reads_label.attempt.bind fun l hl => ih.bind fun cs hcs => reads_pure ?_
        obtain ⟨hcases, hincreasing, hbehind⟩ := hcs
        have hbehind' : ∀ c ∈ cs, k < c.1 := hbehind k rfl
        refine ⟨forall_mem_cons.2 ⟨⟨by unfold IsInt32; omega, hl⟩, hcases⟩, ?_, ?_⟩
        · rw [map_cons, pairwise_cons]
          exact ⟨by simpa using fun c o hmem => hbehind' (c, o) hmem, hincreasing⟩
        · intro k' hk'
          have hlt : k' < k := by
            rw [Option.mem_def.1 hk'] at hlast
            simpa using hlast
          intro c hc
          rcases mem_cons.1 hc with rfl | hc
          · exact hlt
          · exact hlt.trans (hbehind' c hc)

theorem reads_lookupSwitch : Reads L (ListedInstruction L) (lookupSwitch ts) := by
  unfold lookupSwitch
  split
  next => exact reads_refuse
  next fallback cases =>
    refine reads_label.attempt.bind fun d? hd => reads_switchCases.bind fun cs hcs => ?_
    obtain ⟨hcases, hincreasing, -⟩ := hcs
    refine (reads_require hd).bind fun d hd => ?_
    have hsnd : ∀ o ∈ cs.map Prod.snd, ∀ l, o = some l → l ∈ L := by
      simpa using fun o k hmem => (hcases _ hmem).2
    refine (reads_requireAll hsnd).bind fun ts hts => ?_
    have hlength : (cs.map Prod.fst).length = ts.length := by rw [hts.1]; simp
    apply reads_pure
    constructor
    · trivial
    · exact ⟨by simpa using fun k o hmem => (hcases _ hmem).1, hincreasing, hlength⟩
    · nofun
    · exact forall_mem_cons.2 ⟨hd, hts.2⟩

theorem range_of_lookup {rows : List (Text × Int)} {low high : Int}
    (hall : ∀ x ∈ rows, low ≤ x.2 ∧ x.2 ≤ high) {name : Text} {n : Int}
    (h : rows.lookup name = some n) : low ≤ n ∧ n ≤ high := by
  obtain ⟨l₁, l₂, hl, -⟩ := lookup_eq_some_iff.1 h
  exact hall (name, n) (by rw [hl]; simp)

theorem reads_dynamic : Reads L (ListedInstruction L) (dynamic ts) := by
  unfold dynamic
  split
  next =>
    split
    · exact reads_refuse
    next k hk =>
      have hkind : 1 ≤ k ∧ k ≤ 9 := range_of_lookup (by simp [handleKinds]) hk
      refine readable_constants.bind fun vs hvs => reads_pure ?_
      exact ⟨trivial, hkind, hvs, nofun⟩
  next => exact reads_refuse

theorem hasShape_code {f : Opcode.Format} (h : op.format = f) :
    Instruction.HasShape op.code f.shape := by
  subst h
  exact ⟨op.code, rfl, by cases op <;> rfl⟩

theorem reads_invoke (h : op.format = .method ∨ op.format = .interfaceMethod) :
    Reads L (ListedInstruction L) (invoke op args) := by
  have hop : Instruction.HasShape op.code .method ∨ (op.code : Int) = 185 := by
    rcases h with h | h
    · exact .inl (hasShape_code h)
    · exact .inr (by cases op <;> first | rfl | cases h)
  unfold invoke
  split
  · exact reads_pure (listed_of_inRange hop)
  · split
    · exact reads_pure (listed_of_inRange hop)
    · exact reads_refuse
  · exact reads_refuse

theorem reads_instruction : Reads L (ListedInstruction L) (instruction op args) := by
  unfold instruction
  split
  next =>
    exact reads_integer.bind fun v hv => reads_pure (listed_of_inRange (.inl ⟨rfl, hv⟩))
  next =>
    exact reads_integer.bind fun v hv => reads_pure (listed_of_inRange (.inr (.inl ⟨rfl, hv⟩)))
  next =>
    split
    next n hn =>
      have hrange : 4 ≤ n ∧ n ≤ 11 := range_of_lookup (by simp [arrayTypes]) hn
      exact reads_pure (listed_of_inRange (.inr (.inr ⟨rfl, hrange⟩)))
    next => exact reads_refuse
  next =>
    refine readable_constant.bind fun v hv => reads_pure ?_
    exact ⟨trivial, trivial, by simpa [CodeEvent.constants] using hv, nofun⟩
  next =>
    refine reads_integer.attempt.bind fun slot? hslot =>
      reads_integer.attempt.bind fun amount? hamount => ?_
    refine (reads_require hslot).bind fun slot hslot =>
      (reads_require hamount).bind fun amount hamount => reads_pure ?_
    exact listed_of_inRange ⟨hslot.1, hslot.2, hamount⟩
  next => exact reads_tableSwitch
  next => exact reads_lookupSwitch
  next => exact reads_integer.bind fun v hv => reads_pure (listed_of_inRange hv)
  next => exact reads_dynamic
  next =>
    split
    next =>
      refine reads_integer.bind fun v hv => reads_pure (listed_of_inRange ⟨?_, hv⟩)
      exact hasShape_code ‹op.format = .var›
    next => exact reads_pure (listed_of_inRange (hasShape_code ‹op.format = .type›))
    next => exact reads_pure (listed_of_inRange (hasShape_code ‹op.format = .field›))
    next => exact reads_invoke (.inl ‹_›)
    next => exact reads_invoke (.inr ‹_›)
    next =>
      refine reads_label.bind fun l hl => reads_pure ?_
      exact ⟨trivial, hasShape_code ‹op.format = .label›, nofun,
        by simpa [targets, Instruction.targets] using hl⟩
    next => exact reads_pure (listed_of_inRange (hasShape_code ‹op.format = .plain›))
    all_goals exact reads_refuse

/-! ## Lines -/

def ListedStatement (L : Std.HashSet Text) (e : CodeEvent Text) : Prop :=
  Listed L e ∧ e.placed? = none

theorem reads_maxs : Reads L (fun _ => True) (maxs args) := by
  unfold maxs
  split
  next =>
    refine reads_integer.attempt.bind fun stack? hstack =>
      reads_integer.attempt.bind fun locals? hlocals => ?_
    refine (reads_require hstack).bind fun stack hstack =>
      (reads_require hlocals).bind fun locals hlocals => ?_
    intro r _
    exact ⟨⟨rfl, le_rfl, fun _ => ⟨hstack, hlocals⟩⟩, fun _ _ => trivial⟩
  next => exact reads_refuse

theorem reads_lineNumber : Reads L (ListedStatement L) (lineNumber args) := by
  unfold lineNumber
  split
  next =>
    refine reads_integer.attempt.bind fun number? hnumber => reads_label.attempt.bind
      fun start? hstart => ?_
    refine (reads_require hnumber).bind fun number hnumber =>
      (reads_require hstart).bind fun start hstart => reads_pure ⟨?_, rfl⟩
    exact ⟨trivial, hnumber, nofun, by simpa [targets] using hstart⟩
  next => exact reads_refuse

theorem reads_tryCatch : Reads L (ListedStatement L) (tryCatch args) := by
  have hread (start stop handler caught : Text) : Reads L (ListedStatement L) (do
      let s ← attempt (label start)
      let e ← attempt (label stop)
      let h ← attempt (label handler)
      return .tryCatch (← require s) (← require e) (← require h) caught) := by
    refine reads_label.attempt.bind fun s hs => reads_label.attempt.bind fun e he =>
      reads_label.attempt.bind fun h hh => ?_
    refine (reads_require hs).bind fun s hs => (reads_require he).bind fun e he =>
      (reads_require hh).bind fun h hh => reads_pure ⟨?_, rfl⟩
    exact ⟨trivial, trivial, nofun, by simp [targets, hs, he, hh]⟩
  unfold tryCatch
  split
  · exact hread _ _ _ _
  · exact hread _ _ _ _
  · exact reads_refuse

theorem reads_localVariable : Reads L (ListedStatement L) (localVariable args) := by
  have hread (name desc start stop slot signature : Text) : Reads L (ListedStatement L) (do
      let s ← attempt (label start)
      let e ← attempt (label stop)
      let i ← attempt (unsigned16 slot)
      return .localVariable name desc signature (← require s) (← require e) (← require i)) := by
    refine reads_label.attempt.bind fun s hs => reads_label.attempt.bind fun e he =>
      reads_integer.attempt.bind fun i hi => ?_
    refine (reads_require hs).bind fun s hs => (reads_require he).bind fun e he =>
      (reads_require hi).bind fun i hi => reads_pure ⟨?_, rfl⟩
    exact ⟨trivial, hi, nofun, by simp [targets, hs, he]⟩
  unfold localVariable
  split
  · exact hread _ _ _ _ _ _
  · exact hread _ _ _ _ _ _
  · exact reads_refuse

theorem reads_statement {word : Text} : Reads L (ListedStatement L) (statement word args) := by
  unfold statement
  dsimp only
  split
  · exact reads_maxs.bind fun _ _ => reads_failure
  · split
    · exact reads_lineNumber
    · split
      · exact reads_tryCatch
      · split
        · exact reads_localVariable
        · split
          next op _ => exact reads_instruction.bind fun i hi => reads_pure ⟨hi, rfl⟩
          next => exact reads_report

end

def lineLabel? (words : Except Text (List Text)) : Option Text := words.toOption.bind definedLabel?

theorem run_collectLabel (words : Except Text (List Text)) (r : Reading) :
    ((collectLabel words).run r).2 =
      match lineLabel? words with
      | none => r
      | some name =>
        if name ∈ r.labels then ((report (.badOperand (.labelTwice name))).run r).2
        else { r with labels := r.labels.insert name } := by
  match words with
  | .error rest => rfl
  | .ok ws =>
    have hline : lineLabel? (.ok ws) = definedLabel? ws := rfl
    rw [hline]
    cases hdefined : definedLabel? ws with
    | none =>
      simp only [collectLabel, hdefined]
      rfl
    | some name =>
      simp only [collectLabel, hdefined]
      show (StateT.run (if r.labels.contains name then report (.badOperand (.labelTwice name))
        else modify fun r => { r with labels := r.labels.insert name }) r).2 = _
      by_cases hname : name ∈ r.labels
      · rw [if_pos hname, if_pos (Std.HashSet.mem_iff_contains.1 hname)]
      · rw [if_neg hname, if_neg (fun h => hname (Std.HashSet.mem_iff_contains.2 h))]
        rfl

/-- What collecting labels adds to the labels known before, and what a listing without errors says
about them. -/
structure Reading.Collects (r : Reading) (names : List Text) (r' : Reading) : Prop where
  labels : ∀ name, name ∈ r'.labels ↔ name ∈ r.labels ∨ name ∈ names
  errors : r.errors.size ≤ r'.errors.size
  fresh : r'.errors.size = r.errors.size → names.Nodup ∧ ∀ name ∈ names, name ∉ r.labels
  sizes : r'.sizes = r.sizes

theorem collects_collectLabel (words : Except Text (List Text)) (r : Reading) :
    r.Collects (lineLabel? words).toList ((collectLabel words).run r).2 := by
  rw [run_collectLabel]
  cases lineLabel? words with
  | none => exact ⟨by simp, le_rfl, by simp, rfl⟩
  | some name =>
    by_cases hname : name ∈ r.labels
    · simp only [hname, if_true]
      obtain ⟨hlabels, herrors, -⟩ := r.leads_report (.badOperand (.labelTwice name))
      refine ⟨fun name' => ?_, herrors, fun hsize => ?_, rfl⟩
      · rw [hlabels]
        constructor
        · exact .inl
        · rintro (h | h)
          · exact h
          · rw [mem_singleton.1 h]
            exact hname
      · have hpush : ((report (.badOperand (.labelTwice name))).run r).2.errors.size =
            r.errors.size + 1 := Array.size_push _
        omega
    · simp only [hname, if_false]
      refine ⟨fun name' => ?_, le_rfl, by simp [hname], rfl⟩
      rw [Std.HashSet.mem_insert, beq_iff_eq, or_comm, Option.toList_some, mem_singleton,
        eq_comm]

theorem collects_collectLabels (lines : List (Except Text (List Text))) (n : Nat) (r : Reading) :
    r.Collects (lines.filterMap lineLabel?) ((collectLabels lines n).run r).2 := by
  induction lines generalizing n r with
  | nil =>
    have hrun : ((collectLabels [] n).run r).2 = r := rfl
    rw [hrun]
    exact ⟨by simp, le_rfl, by simp, rfl⟩
  | cons words lines ih =>
    let r₁ := ((collectLabel words).run { r with line := n }).2
    have here : r.Collects (lineLabel? words).toList r₁ := by
      obtain ⟨hlabels, herrors, hfresh, hsizes⟩ := collects_collectLabel words { r with line := n }
      exact ⟨hlabels, herrors, hfresh, hsizes⟩
    have rest := ih (n + 1) r₁
    have hnames : (words :: lines).filterMap lineLabel? =
        (lineLabel? words).toList ++ lines.filterMap lineLabel? := by
      rw [filterMap_cons]
      cases lineLabel? words <;> rfl
    rw [hnames]
    refine ⟨fun name => ?_, here.errors.trans rest.errors, fun hsize => ?_,
      rest.sizes.trans here.sizes⟩
    · rw [mem_append, ← or_assoc]
      exact (rest.labels name).trans (or_congr_left (here.labels name))
    · -- no error was recorded on the way
      have hhere := here.errors
      have hrest := rest.errors
      have hsize' : ((collectLabels lines (n + 1)).run r₁).2.errors.size = r.errors.size := hsize
      obtain ⟨hnodup, hnew⟩ := here.fresh (by omega)
      obtain ⟨hnodup', hnew'⟩ := rest.fresh (by omega)
      constructor
      · rw [nodup_append]
        refine ⟨hnodup, hnodup', ?_⟩
        rintro name hname _ hname' rfl
        exact hnew' name hname' ((here.labels name).2 (.inr hname))
      · intro name hname
        rcases mem_append.1 hname with hname | hname
        · exact hnew name hname
        · exact fun hmem => hnew' name hname ((here.labels name).2 (.inl hmem))

theorem event?_spec {L : Std.HashSet Text} {words : Except Text (List Text)} {r : Reading}
    (hr : r.labels = L) (hdefined : ∀ name, lineLabel? words = some name → name ∈ L) :
    r.Leads ((event? words).run r).2 ∧
    (∀ e, ((event? words).run r).1 = some e → Listed L e) ∧
    ((event? words).run r).1.bind placed? = lineLabel? words := by
  match words with
  | .error rest => exact ⟨r.leads_report _, nofun, rfl⟩
  | .ok [] => exact ⟨.refl r, nofun, rfl⟩
  | .ok (w :: ws) =>
    have hline : lineLabel? (.ok (w :: ws)) = definedLabel? (w :: ws) := rfl
    cases hlabel : definedLabel? (w :: ws) with
    | some name =>
      have hrun : (event? (.ok (w :: ws))).run r = (some (.label name), r) := by
        simp only [event?, hlabel]
        rfl
      rw [hrun, hline, hlabel]
      refine ⟨.refl r, fun e he => ?_, rfl⟩
      obtain rfl := Option.some.inj he
      exact ⟨trivial, trivial, nofun, by simpa [targets] using hdefined name hlabel⟩
    | none =>
      have hrun : event? (.ok (w :: ws)) = (statement w ws).run := by
        simp only [event?, hlabel]
      rw [hrun, hline, hlabel]
      obtain ⟨hleads, hread⟩ := (reads_statement : Reads L _ (statement w ws)) r hr
      refine ⟨hleads, fun e he => (hread e he).1, ?_⟩
      cases he : ((statement w ws).run.run r).1 with
      | none => rfl
      | some e => exact (hread e he).2

theorem run_readEvents_cons (words : Except Text (List Text))
    (lines : List (Except Text (List Text))) (n : Nat) (events : Array (CodeEvent Text))
    (r : Reading) : (readEvents (words :: lines) n events).run r =
      (readEvents lines (n + 1) (match ((event? words).run { r with line := n }).1 with
        | some e => events.push e
        | none => events)).run ((event? words).run { r with line := n }).2 := by
  show (match ((event? words).run { r with line := n }).1 with
    | some e => readEvents lines (n + 1) (events.push e)
    | none => readEvents lines (n + 1) events).run ((event? words).run { r with line := n }).2 = _
  split <;> rfl

theorem readEvents_spec {L : Std.HashSet Text} {lines : List (Except Text (List Text))} {n : Nat}
    {events : Array (CodeEvent Text)} {r : Reading} (hr : r.labels = L)
    (hdefined : ∀ name ∈ lines.filterMap lineLabel?, name ∈ L) :
    r.Leads ((readEvents lines n events).run r).2 ∧
    ∃ more, ((readEvents lines n events).run r).1.toList = events.toList ++ more ∧
      (∀ e ∈ more, Listed L e) ∧ more.filterMap placed? = lines.filterMap lineLabel? := by
  induction lines generalizing n events r with
  | nil => exact ⟨.refl r, [], (append_nil _).symm, by simp, rfl⟩
  | cons words lines ih =>
    have hdefined' : ∀ name ∈ lines.filterMap lineLabel?, name ∈ L := by
      intro name hname
      obtain ⟨words', hmem, hname⟩ := mem_filterMap.1 hname
      exact hdefined name (mem_filterMap.2 ⟨words', mem_cons_of_mem _ hmem, hname⟩)
    have hword : ∀ name, lineLabel? words = some name → name ∈ L :=
      fun name hname => hdefined name (mem_filterMap.2 ⟨words, mem_cons_self, hname⟩)
    obtain ⟨hleads, hlisted, hplaced⟩ := event?_spec (r := { r with line := n }) hr hword
    have hleads' : r.Leads ((event? words).run { r with line := n }).2 :=
      (⟨rfl, le_rfl, id⟩ : r.Leads { r with line := n }).trans hleads
    rw [run_readEvents_cons]
    obtain ⟨hrest, more, hmore, hall, hnames⟩ := ih (hleads'.labels.trans hr) hdefined'
    refine ⟨hleads'.trans hrest, ?_⟩
    cases he : ((event? words).run { r with line := n }).1 with
    | none =>
      rw [he] at hmore hplaced
      refine ⟨more, hmore, hall, ?_⟩
      rw [hnames, filterMap_cons_none hplaced.symm]
    | some e =>
      rw [he] at hmore hplaced
      refine ⟨e :: more, by simpa using hmore, forall_mem_cons.2 ⟨hlisted e he, hall⟩, ?_⟩
      rw [filterMap_cons, filterMap_cons, ← hplaced, hnames]
      rfl

theorem run_collectLabels_cons (words : Except Text (List Text))
    (lines : List (Except Text (List Text))) (n : Nat) (r : Reading) :
    ((collectLabels (words :: lines) n).run r).2 =
      ((collectLabels lines (n + 1)).run ((collectLabel words).run { r with line := n }).2).2 := rfl

theorem run_bind_of_some {α β : Type} {p : PartM α} {f : α → PartM β} {r r' : Reading} {a : α}
    (h : p.run.run r = (some a, r')) : (p >>= f).run.run r = (f a).run.run r' := by
  simp only [OptionT.run_bind, Option.elimM, StateT.run_bind, h]
  rfl

theorem run_label {name : Text} {r : Reading} (h : name ∈ r.labels) :
    (label name).run.run r = (some name, r) := by
  show ((if r.labels.contains name then (pure name : PartM Text) else do
    (report (.undefinedLabel name) : ReadM Unit); failure).run.run r) = _
  rw [if_pos (Std.HashSet.mem_iff_contains.1 h)]
  rfl

/-- A line whose first word is the name of an operation is read as an instruction. -/
theorem event?_of_lookup {word : Text} {args : List Text} (op : Opcode)
    (hlabel : definedLabel? (word :: args) = none)
    (h : word.toLower ∉ ["maxs", "line", "trycatch", "local"].map Text.ofString ∧
      Opcode.lookup? word.toLower = some op) :
    event? (.ok (word :: args)) =
      (do return .instruction (← instruction op args) : PartM _).run := by
  obtain ⟨hword, hlookup⟩ := h
  simp only [map_cons, map_nil, mem_cons, not_mem_nil, or_false, not_or] at hword
  obtain ⟨hmaxs, hline, htry, hlocal⟩ := hword
  simp only [event?, hlabel, statement]
  rw [if_neg hmaxs, if_neg hline, if_neg htry, if_neg hlocal, hlookup]

theorem event?_goto {l : Text} {r : Reading} (hlabel : definedLabel? ["goto", l] = none)
    (h : l ∈ r.labels) :
    (event? (.ok ["goto", l])).run r = (some (.instruction (.jump 167 l)), r) := by
  rw [event?_of_lookup .goto hlabel (by decide +kernel)]
  exact run_bind_of_some (run_bind_of_some (run_label h))

theorem event?_label {word name : Text} (h : definedLabel? [word] = some name) (r : Reading) :
    (event? (.ok [word])).run r = (some (.label name), r) := by
  simp only [event?, h]
  rfl

theorem read_of_run {method code : Text} {lines : List (Except Text (List Text))}
    {events : Array (CodeEvent Text)} {r : Reading} (hlines : (code.split 10).map tokens = lines)
    (hrun : (readEvents lines 1 #[]).run ((collectLabels lines 1).run { method }).2 = (events, r)) :
    read method code =
      ({ events := events.toList, maxStack := r.maxStack, maxLocals := r.maxLocals },
        r.errors.toList) := by
  have hboth : (do collectLabels lines 1; readEvents lines 1 #[] : ReadM _).run { method } =
      (events, r) := hrun
  unfold read
  rw [hlines]
  dsimp only
  rw [hboth]

/-- Every event that is read mentions only labels that the listing defines. -/
theorem listed_read (method code : Text) :
    ∃ L : Std.HashSet Text, (∀ e ∈ (read method code).1.events, Listed L e) ∧
      (∀ name, name ∈ L ↔ name ∈ (read method code).1.events.filterMap placed?) ∧
      (.maxs (read method code).1.maxStack (read method code).1.maxLocals :
        CodeEvent Text).InRange ∧
      ((read method code).2 = [] → ((read method code).1.events.filterMap placed?).Nodup) := by
  let lines := (code.split 10).map tokens
  let r := ((collectLabels lines 1).run { method }).2
  have hcollects : Reading.Collects { method } (lines.filterMap lineLabel?) r :=
    collects_collectLabels lines 1 { method }
  have hlabels (name : Text) : name ∈ r.labels ↔ name ∈ lines.filterMap lineLabel? := by
    rw [hcollects.labels]
    exact or_iff_right Std.HashSet.not_mem_empty
  obtain ⟨hleads, more, hmore, hall, hnames⟩ := @readEvents_spec _ _ 1 #[] r rfl
    fun name hname => (hlabels name).2 hname
  have hevents : (read method code).1.events = more := hmore
  have herrors : (read method code).2 = ((readEvents lines 1 #[]).run r).2.errors.toList := rfl
  rw [hevents, hnames]
  refine ⟨r.labels, hall, hlabels, ?_, fun hnil => ?_⟩
  · apply hleads.sizes
    rw [hcollects.sizes]
    simp [Reading.sizes, CodeEvent.InRange]
  · have hempty : r.errors.size = 0 := by
      have hle := hleads.errors
      rw [Array.toList_eq_nil_iff.1 (herrors.symm.trans hnil)] at hle
      exact Nat.le_zero.1 hle
    exact (hcollects.fresh hempty).1

end Listing

/-! ## Sources of classes -/

namespace CheckM

/-- Checking takes back no error, and a result that is reached without a new one has a property. -/
def Passes {α : Type} (P : α → Prop) (x : CheckM α) : Prop :=
  ∀ es, es.size ≤ (x.run es).2.size ∧ ((x.run es).2.size = es.size → P (x.run es).1)

section

variable {α β : Type} {P : α → Prop} {Q : β → Prop}

theorem passes_pure {a : α} (h : P a) : Passes P (pure a) := fun _ => ⟨le_rfl, fun _ => h⟩

theorem Passes.bind {x : CheckM α} {f : α → CheckM β} (hx : Passes P x)
    (hf : ∀ a, Passes (fun b => P a → Q b) (f a)) : Passes Q (x >>= f) := by
  intro es
  obtain ⟨hle, hP⟩ := hx es
  obtain ⟨hle', hQ⟩ := hf (x.run es).1 (x.run es).2
  have hrun : (x >>= f).run es = (f (x.run es).1).run (x.run es).2 := rfl
  rw [hrun]
  refine ⟨hle.trans hle', fun hsize => ?_⟩
  exact hQ (by omega) (hP (by omega))

theorem Passes.imp {P' : α → Prop} {x : CheckM α} (hx : Passes P x) (h : ∀ a, P a → P' a) :
    Passes P' x :=
  fun es => ⟨(hx es).1, fun hsize => h _ ((hx es).2 hsize)⟩

theorem passes_report (e : SourceError) : Passes (fun _ => False) (report e) := by
  intro es
  have hsize : ((report e).run es).2.size = es.size + 1 := Array.size_push _
  omega

theorem passes_unless {c : Prop} [Decidable c] {e : SourceError} {f : Unit → CheckM α}
    (hf : Passes P (f ())) : Passes P (if c then report e >>= f else f ()) := by
  split
  · exact (passes_report e).bind fun _ => hf.imp fun _ _ => False.elim
  · exact hf

theorem passes_flags (part : SourcePart) (names : List Text) :
    Passes (fun _ => True) (flags part names) := by
  unfold flags
  split
  · exact passes_pure trivial
  · exact (passes_report _).bind fun _ => passes_pure fun _ => trivial

theorem passes_version (major : Int) :
    Passes (fun v => version? major = some v) (version major) := by
  unfold version
  split
  next v hv => exact passes_pure hv
  next => exact (passes_report _).bind fun _ => passes_pure False.elim

theorem passes_members {check : Nat → α → CheckM β} {R : α → β → Prop}
    (hcheck : ∀ i a, Passes (R a) (check i a)) (as : List α) (i : Nat) :
    Passes (Forall₂ R as) (members check as i) := by
  induction as generalizing i with
  | nil => exact passes_pure .nil
  | cons a as ih =>
    refine (hcheck i a).bind fun b => (ih (i + 1)).bind fun bs => passes_pure ?_
    exact fun hbs hb => .cons hb hbs

end

end CheckM

/-- What is checked keeps the names of a field. -/
structure FieldSource.Gives (s : FieldSource) (f : CheckedField) : Prop where
  name : f.name = s.name
  desc : f.desc = s.desc
  signature : f.signature = s.signature

/-- What is checked keeps the names of a method and reads its listing, which has no error. -/
structure MethodSource.Gives (s : MethodSource) (m : CheckedMethod) : Prop where
  name : m.name = s.name
  desc : m.desc = s.desc
  signature : m.signature = s.signature
  exceptions : m.exceptions = s.exceptions
  code : m.code =
    if s.code.isEmpty then none else some (Listing.read (s.name ++ s.desc) s.code).1
  errors : s.code.isEmpty = false → (Listing.read (s.name ++ s.desc) s.code).2 = []

/-- What is checked keeps the names of a class, and its members in order. -/
structure ClassSource.Gives (s : ClassSource) (c : CheckedClass) : Prop where
  version : CheckM.version? s.version = some c.version
  name : c.name = s.name
  signature : c.signature = s.signature
  super : c.super = s.superName
  interfaces : c.interfaces = s.interfaces
  source : c.source = s.source
  fields : Forall₂ FieldSource.Gives s.fields c.fields
  methods : Forall₂ MethodSource.Gives s.methods c.methods

namespace CheckM

theorem passes_field (i : Nat) (f : FieldSource) : Passes f.Gives (field i f) := by
  unfold field
  refine passes_unless ((passes_flags _ _).bind fun access => ?_)
  dsimp only
  split
  · exact passes_pure fun _ => ⟨rfl, rfl, rfl⟩
  · exact (passes_report _).bind fun _ => passes_pure False.elim

theorem passes_method (i : Nat) (m : MethodSource) : Passes m.Gives (method i m) := by
  unfold method
  refine passes_unless ((passes_flags _ _).bind fun access => ?_)
  dsimp only
  by_cases hempty : m.code.isEmpty = true
  · rw [if_pos hempty]
    exact passes_pure fun _ => ⟨rfl, rfl, rfl, rfl, (if_pos hempty).symm, by simp [hempty]⟩
  · rw [if_neg hempty]
    intro es
    constructor
    · show es.size ≤ (es ++ _).size
      simp
    · -- a listing with an error adds to the errors
      intro hsize _
      have hadded : (es ++ ((Listing.read (m.name ++ m.desc) m.code).2.map
          SourceError.line).toArray).size = es.size := hsize
      exact ⟨rfl, rfl, rfl, rfl, (if_neg hempty).symm, fun _ => by simpa using hadded⟩

end CheckM

namespace ClassSource

theorem passes_checkParts (s : ClassSource) : CheckM.Passes s.Gives s.checkParts := by
  unfold checkParts
  refine CheckM.passes_unless ((CheckM.passes_version _).bind fun version =>
    (CheckM.passes_flags _ _).bind fun access => ?_)
  refine (CheckM.passes_members CheckM.passes_field s.fields 0).bind fun fields =>
    (CheckM.passes_members CheckM.passes_method s.methods 0).bind fun methods =>
      CheckM.passes_pure ?_
  exact fun hmethods hfields _ hversion => ⟨hversion, rfl, rfl, rfl, rfl, rfl, hfields, hmethods⟩

/-- A source without errors gives the class that the check returns. -/
theorem gives_of_check {s : ClassSource} {c : CheckedClass} (h : s.check = .ok c) : s.Gives c := by
  unfold check at h
  split at h
  next c' errors hrun =>
    split at h
    next hempty =>
      have hpasses := (s.passes_checkParts #[]).2
      rw [hrun, Array.isEmpty_iff.1 hempty] at hpasses
      exact Except.ok.inj h ▸ hpasses rfl
    next => cases h

theorem exists_of_check {s : ClassSource} {c : CheckedClass} (h : s.check = .ok c)
    {m : CheckedMethod} (hm : m ∈ c.methods) {l : Listing} (hl : m.code = some l) :
    ∃ name code, Listing.read name code = (l, []) := by
  obtain ⟨source, -, hgives⟩ := exists_of_forall₂ (gives_of_check h).methods hm
  have hcode := hgives.code
  rw [hl] at hcode
  split at hcode
  · cases hcode
  next hempty =>
    have herrors := hgives.errors (by simpa using hempty)
    exact ⟨_, _, Prod.ext (Option.some.inj hcode).symm herrors⟩

def ofCode (code : Text) : ClassSource where
  name := "T"
  super := "O"
  methods := [{ name := "m", desc := "()V", code }]

end ClassSource

def CheckedClass.ofListing (l : Listing) : CheckedClass where
  version := 52
  access := 0
  name := "T"
  signature := ""
  super := "O"
  interfaces := []
  source := ""
  fields := []
  methods := [{
    access := 0
    name := "m"
    desc := "()V"
    signature := ""
    exceptions := []
    code := some l }]

theorem ClassSource.check_ofCode {code : Text} {l : Listing} (hcode : code ≠ [])
    (h : Listing.read "m()V" code = (l, [])) : (ofCode code).check = .ok (.ofListing l) := by
  have hempty : code.isEmpty = false := by simpa using hcode
  have hread : Listing.read ("m" ++ "()V") code = (l, []) := h
  have hparts : (ofCode code).checkParts.run #[] = (.ofListing l, #[]) := by
    simp only [checkParts, ofCode, CheckM.members, CheckM.method, hempty, hread]
    rfl
  simp only [check, hparts]
  rfl

end ClassAssembler
