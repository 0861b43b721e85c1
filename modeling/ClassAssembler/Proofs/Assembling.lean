import ClassAssembler.Proofs.ListingCode
import ClassAssembler.Proofs.Outlines

/-!
# Classes that are assembled

The bytes of a class are those of a class file whose header and members are the ones that the source
gives, and whose methods have the code of their listings: decoded with the constants of the file,
the code of a method is the instructions of its listing in order, and every label stands for the
offset of the first instruction behind it (`CheckedClass.classFile_of_assemble`).  This holds unless
frames are computed, because code that is never reached is replaced then.
-/

namespace ClassAssembler

open Machine Item Format List CodeEvent Assembler

/-! ## Events as visits -/

def Outline.takeEvent {T : Type} (o : Outline) : ClassEvent T → Outline
  | .header version access name signature super interfaces =>
    o.take (.header version access name signature super interfaces)
  | .field access name desc signature value => o.take (.field access name desc signature value)
  | .method access name desc signature exceptions =>
    o.take (.method access name desc signature exceptions)
  | _ => o

def CheckedClass.outline (c : CheckedClass) : Outline where
  version := c.version
  access := c.access.toNat
  name := c.name
  signature := c.signature
  super := c.super
  interfaces := c.interfaces
  fields := c.fields.map fun f => ⟨f.access.toNat, f.name, f.desc, f.signature, f.value⟩
  methods := c.methods.map fun m => ⟨m.access.toNat, m.name, m.desc, m.signature, m.exceptions⟩

theorem Machine.Follows.ne_nil {T : Type} {pos : T → Nat} {o stop : Nat} {es : List (CodeEvent T)}
    {ds : List (Nat × Decoded)} (h : Follows pos o es ds stop) {i : Instruction T}
    (hi : .instruction i ∈ es) : ds ≠ [] := by
  induction h with
  | nil => cases hi
  | instruction here _ _ => cases here <;> simp
  | label _ _ ih => exact ih ((mem_cons.1 hi).resolve_left (by simp))
  | aside hinstruction _ _ ih =>
    exact ih ((mem_cons.1 hi).resolve_left fun heq => hinstruction i heq.symm)

namespace Outline

variable {T U : Type} {o : Outline}

theorem takeEvent_mapTargets (g : T → U) (e : ClassEvent T) :
    o.takeEvent (e.mapTargets g) = o.takeEvent e := by
  cases e <;> rfl

theorem foldl_fields (fs : List CheckedField) :
    (fs.map CheckedField.event).foldl takeEvent o = { o with
      fields := o.fields ++
        fs.map fun f => ⟨f.access.toNat, f.name, f.desc, f.signature, f.value⟩ } := by
  induction fs generalizing o with
  | nil => simp
  | cons f fs ih =>
    rw [map_cons, foldl_cons, ih]
    simp [CheckedField.event, takeEvent, take]

theorem foldl_codeEvents (m : CheckedMethod) (i : Nat) :
    (m.codeEvents i).foldl takeEvent o = o := by
  have hcode (es : List (CodeEvent Text)) :
      (es.map fun e => ClassEvent.code (e.mapTargets (ListingLabel.mk i))).foldl
        takeEvent o = o := by
    induction es with
    | nil => rfl
    | cons e es ih => exact ih
  rw [CheckedMethod.codeEvents]
  cases m.code with
  | none => rfl
  | some l =>
    rw [foldl_append, foldl_cons]
    exact hcode l.events

theorem foldl_methods (ms : List CheckedMethod) (i : Nat) :
    (((ms.zipIdx i).map fun (m, i) => m.events i).flatten).foldl takeEvent o = { o with
      methods := o.methods ++
        ms.map fun m => ⟨m.access.toNat, m.name, m.desc, m.signature, m.exceptions⟩ } := by
  induction ms generalizing o i with
  | nil => simp
  | cons m ms ih =>
    have hone : (m.events i).foldl takeEvent o =
        { o with
          methods := o.methods ++
            [⟨m.access.toNat, m.name, m.desc, m.signature, m.exceptions⟩] } := by
      simp only [CheckedMethod.events, foldl_append, foldl_cons, foldl_codeEvents]
      rfl
    rw [zipIdx_cons, map_cons, flatten_cons, foldl_append, hone, ih]
    simp

theorem foldl_events (c : CheckedClass) : c.events.foldl takeEvent {} = c.outline := by
  have hsource : ∀ o : Outline, (if c.source.isEmpty then [] else
      [(ClassEvent.source c.source [] : ClassEvent ListingLabel)]).foldl takeEvent o = o := by
    intro o
    split <;> rfl
  simp only [CheckedClass.events, foldl_append, foldl_cons, foldl_nil, hsource,
    foldl_fields, foldl_methods]
  simp [takeEvent, take, CheckedClass.outline]

end Outline

namespace Visit

variable {x y z : ClassBody.State}

theorem ends_runAll_append {vs ws : List Visit} (h : Ends (runAll vs) x () y)
    (h' : Ends (runAll ws) y () z) : Ends (runAll (vs ++ ws)) x () z := by
  induction vs generalizing x with
  | nil =>
    obtain ⟨-, rfl⟩ := h.pure
    exact h'
  | cons v vs ih =>
    obtain ⟨_, w, hv, h⟩ := h.bind
    exact ends_bind.2 ⟨_, w, hv, ih h⟩

theorem ends_runAll_one {v : Visit} (h : Ends v.run x () y) : Ends (runAll [v]) x () y :=
  ends_bind.2 ⟨_, y, h, ends_pure.2 ⟨rfl, rfl⟩⟩

end Visit

namespace ClassM

open ClassBody

variable {x y : State} {o o' : Option MethodId}

theorem exists_visits_onOpen {act : MethodM Unit} (v : MethodId → Visit)
    (hv : ∀ m, (v m).run = onMethod m act)
    (htake : ∀ m (outline : Outline), outline.take (v m) = outline)
    (h : Ends (onOpen o act) x () y) : ∃ vs, Ends (Visit.runAll vs) x () y ∧
      ((∀ m, (v m).Counted) → ∀ v ∈ vs, v.Counted) ∧
      ∀ outline : Outline, vs.foldl Outline.take outline = outline := by
  cases o with
  | none =>
    obtain ⟨-, rfl⟩ := h.pure
    exact ⟨[], ends_pure.2 ⟨rfl, rfl⟩, by simp, fun _ => rfl⟩
  | some m =>
    have hrun : Ends (v m).run x () y := by
      rw [hv]
      exact h
    exact ⟨[v m], Visit.ends_runAll_one hrun, fun hcounted => by simpa using hcounted m, htake m⟩

theorem exists_visits {e : ClassEvent LabelId} (h : Ends (takeEvent o e) x o' y) :
    ∃ vs, Ends (Visit.runAll vs) x () y ∧
      ((∀ c, e = .code c → c.Counted) → ∀ v ∈ vs, v.Counted) ∧
      ∀ outline : Outline, vs.foldl Outline.take outline = outline.takeEvent e := by
  cases e with
  | header version access name signature super interfaces =>
    obtain ⟨_, w, hone, e⟩ := h.bind
    obtain ⟨-, rfl⟩ := e.pure
    exact ⟨[.header version access name signature super interfaces], Visit.ends_runAll_one hone,
      by simp [Visit.Counted], fun _ => rfl⟩
  | source file debug =>
    obtain ⟨_, w, hone, e⟩ := h.bind
    obtain ⟨-, rfl⟩ := e.pure
    exact ⟨[.source file debug], Visit.ends_runAll_one hone, by simp [Visit.Counted], fun _ => rfl⟩
  | field access name desc signature value =>
    obtain ⟨f?, w, h, e⟩ := h.bind
    have hfield : Ends (Visit.runAll [.field access name desc signature value]) x () w :=
      Visit.ends_runAll_one (ends_discard.2 ⟨_, h⟩)
    cases f? with
    | none =>
      obtain ⟨-, rfl⟩ := e.pure
      exact ⟨_, hfield, by simp [Visit.Counted], fun _ => rfl⟩
    | some f =>
      obtain ⟨_, w', hfinish, e⟩ := e.bind
      obtain ⟨-, rfl⟩ := e.pure
      exact ⟨_, Visit.ends_runAll_append hfield
        (Visit.ends_runAll_one (v := .finish (.field f)) hfinish),
        by simp [Visit.Counted], fun _ => rfl⟩
  | method access name desc signature exceptions =>
    exact ⟨[.method access name desc signature exceptions],
      Visit.ends_runAll_one (ends_discard.2 ⟨_, h⟩), by simp [Visit.Counted], fun _ => rfl⟩
  | beginCode =>
    obtain ⟨_, w, hone, e⟩ := h.bind
    obtain ⟨-, rfl⟩ := e.pure
    obtain ⟨vs, hvs, hcounted, htake⟩ := exists_visits_onOpen .beginCode (fun _ => rfl)
      (fun _ _ => rfl) hone
    exact ⟨vs, hvs, fun _ => hcounted fun _ => trivial, htake⟩
  | code c =>
    obtain ⟨_, w, hone, e⟩ := h.bind
    obtain ⟨-, rfl⟩ := e.pure
    obtain ⟨vs, hvs, hcounted, htake⟩ := exists_visits_onOpen (.code · c) (fun _ => rfl)
      (fun _ _ => rfl) hone
    exact ⟨vs, hvs, fun hc => hcounted fun _ => hc c rfl, htake⟩
  | finishMethod =>
    obtain ⟨_, w, hone, e⟩ := h.bind
    obtain ⟨-, rfl⟩ := e.pure
    obtain ⟨vs, hvs, hcounted, htake⟩ := exists_visits_onOpen (fun m => .finish (.method m))
      (fun _ => rfl) (fun _ _ => rfl) hone
    exact ⟨vs, hvs, fun _ => hcounted fun _ => trivial, htake⟩
  | finish =>
    obtain ⟨_, w, hone, e⟩ := h.bind
    obtain ⟨-, rfl⟩ := e.pure
    exact ⟨[.finish .body], Visit.ends_runAll_one hone, by simp [Visit.Counted], fun _ => rfl⟩

theorem exists_visits_all {es : List (ClassEvent LabelId)} (h : Ends (takeEvents es o) x () y)
    (hcounted : ∀ c, ClassEvent.code c ∈ es → c.Counted) :
    ∃ vs, Ends (Visit.runAll vs) x () y ∧ (∀ v ∈ vs, v.Counted) ∧
      ∀ outline : Outline, vs.foldl Outline.take outline = es.foldl Outline.takeEvent outline := by
  induction es generalizing o x with
  | nil =>
    obtain ⟨-, rfl⟩ := h.pure
    exact ⟨[], ends_pure.2 ⟨rfl, rfl⟩, by simp, fun _ => rfl⟩
  | cons e es ih =>
    obtain ⟨o₁, w, h, hrest⟩ := h.bind
    obtain ⟨vs, hvs, hcountedVs, htake⟩ := exists_visits h
    obtain ⟨ws, hws, hcountedWs, htake'⟩ := ih hrest fun c hc => hcounted c (mem_cons_of_mem e hc)
    refine ⟨vs ++ ws, Visit.ends_runAll_append hvs hws, fun v hv => ?_, fun outline => ?_⟩
    · rcases mem_append.1 hv with hv | hv
      · exact hcountedVs (fun c hc => hcounted c (hc ▸ mem_cons_self)) v hv
      · exact hcountedWs v hv
    · rw [foldl_append, htake, htake', foldl_cons]

end ClassM

/-! ## Runs of an assembler -/

theorem Assembler.exists_run {α : Type} {a : Assembler} {act : ClassM α} {r : α} :
    (∃ b, a.run act = .ok (r, b)) ↔ ∃ z, Ends act ((a.pool, a.session), a.body) r z := by
  obtain ⟨api, body, session, pool⟩ := a
  unfold run
  dsimp only
  simp only [Ends, Stateful.outcome]
  generalize ((act.run body).run session).run pool = t
  cases t with
  | error e => simp [Except.map, bind, Except.bind]
  | ok t =>
    constructor
    · rintro ⟨b, h⟩
      cases h
      exact ⟨_, rfl⟩
    · rintro ⟨z, h⟩
      cases h
      exact ⟨_, rfl⟩

/-- Assembling takes the events of a class and then serializes it. -/
theorem CheckedClass.assemble_eq_ok {c : CheckedClass} {compute : Compute} {options : Options}
    {r : Except Failure Buffer} : c.assemble compute options = .ok r ↔
      ∃ x z, c.TakenBy (create compute
        { options with defined := options.defined ++ [c.definition] }) x ∧
      Ends ClassM.toBytes x r z := by
  have hrun : c.assemble compute options = .ok r ↔ ∃ b, (create compute
      { options with defined := options.defined ++ [c.definition] }).run (do
        ClassM.newLabels (Numbering.ofEvents c.events).size
        ClassM.takeEvents (ClassEvent.number c.events) none
        ClassM.toBytes) = .ok (r, b) := by
    unfold CheckedClass.assemble Assembler.assemble
    generalize run _ _ = t
    cases t with
    | error e => simp [bind, Except.bind]
    | ok t =>
      constructor
      · intro h
        cases h
        exact ⟨_, rfl⟩
      · rintro ⟨b, h⟩
        cases h
        rfl
  rw [hrun, exists_run]
  constructor
  · rintro ⟨z, hends⟩
    obtain ⟨_, w, hlabels, e⟩ := ends_bind.1 hends
    obtain ⟨_, x, hevents, hbytes⟩ := e.bind
    exact ⟨x, z, ⟨w, hlabels, hevents⟩, hbytes⟩
  · rintro ⟨x, z, ⟨w, hlabels, hevents⟩, hbytes⟩
    exact ⟨z, ends_bind.2 ⟨_, w, hlabels, ends_bind.2 ⟨_, x, hevents, hbytes⟩⟩⟩

/-! ## The code of every method -/

/-- A row of an exception table is a range of a listing whose labels have positions. -/
def CodeEvent.RangeAt {T : Type} (p : Pool) (s : Session) (pos : T → Nat) :
    CodeEvent T → Handler → Prop
  | tryCatch start stop handler caught, row =>
    (s.spot row.start).position = pos start ∧ (s.spot row.stop).position = pos stop ∧
      (s.spot row.handler).position = pos handler ∧ p.Catches row.caughtIndex caught
  | _, _ => False

/-- A row of the exception table of a class file is a range of a listing. -/
def CodeEvent.RangeShown {T : Type} (t : Table) (pos : T → Nat) : CodeEvent T → HandlerInfo → Prop
  | tryCatch start stop handler caught, row =>
    row.start = pos start ∧ row.stop = pos stop ∧ row.handler = pos handler ∧
      (caught = [] ∧ row.caught = 0 ∨ t.Means row.caught (.classRef caught))
  | _, _ => False

/-- The code of a method and its exception table are those of a listing. -/
def Listing.CodeOf (l : Listing) (u : Method.State) (pos : Text → Nat) : Prop :=
  (∃ ds, Disassembles u.1.1 u.2.code.toList 0 ds ∧ Follows pos 0 l.events ds u.2.code.size) ∧
    Forall₂ (CodeEvent.RangeAt u.1.1 u.1.2 pos) (l.events.filter isRange)
      u.2.handlers.toList

/-- The code in a class file and its exception table are those of a listing: decoded with the
constants of the file, the bytes are the instructions of the listing, and every label stands for the
offset of the first instruction behind it. -/
def Listing.Shown (l : Listing) (t : Table) (p : Pool) (code : CodeInfo) : Prop :=
  ∃ pos, (∃ ds, Disassembles p code.code 0 ds ∧ Follows pos 0 l.events ds code.code.length) ∧
    Forall₂ (CodeEvent.RangeShown t pos) (l.events.filter isRange) code.handlers

/-- A class file has the constants of a pool and, where there are any, its bootstrap methods. -/
structure Format.ClassInfo.Holds (f : ClassInfo) (p : Pool) : Prop where
  constants : Shows f.pool p
  bootstraps : p.bootstrapBytes.toList = [] ∨ ∃ a ∈ f.attributes,
    f.pool.Means a.name (.utf8 "BootstrapMethods") ∧
      a.content = Buffer.bytes16 p.bootstrapCount ++ p.bootstrapBytes.toList

theorem ClassBody.Stands.holds {c : ClassBody} {s : Session} {p : Pool} {f : ClassInfo}
    (h : c.Stands s p f) (hwf : p.Wf) : f.Holds p where
  constants := h.pool
  bootstraps := by
    obtain ⟨bs, hbs, -⟩ := hwf.blocks
    by_cases hcount : p.bootstrapCount = 0
    · have hnil : bs = [] := length_eq_zero_iff.1 (hbs.count.symm.trans hcount)
      exact .inl (by rw [hbs.bytes, hnil]; rfl)
    · exact .inr (exists_attribute h.attributes _ _ _ mem_cons_self (by simpa using hcount))

/-- The code of a listing is found among the attributes of a method of a class file. -/
def Listing.FoundIn (l : Listing) (t : Table) (p : Pool) (m : MemberInfo) : Prop :=
  ∃ a ∈ m.attributes, t.Means a.name (.utf8 "Code") ∧
    ∃ code, codeInfo.run a.content = some (code, []) ∧ l.Shown t p code

theorem Listing.CodeOf.ne_zero {l : Listing} {u : Method.State} {pos : Text → Nat}
    (h : l.CodeOf u pos) {i : Instruction Text} (hi : .instruction i ∈ l.events) :
    u.2.code.size ≠ 0 := by
  obtain ⟨⟨ds, hds, hfollows⟩, -⟩ := h
  intro hzero
  have hnil : u.2.code.toList = [] := length_eq_zero_iff.1 (Array.length_toList.trans hzero)
  rw [hnil] at hds
  cases hds with
  | done => exact hfollows.ne_nil hi rfl
  | step here => cases here

theorem CodeEvent.RangeAt.mono {T : Type} {p q : Pool} {s : Session} {pos : T → Nat}
    {e : CodeEvent T} {h : Handler} (hp : p.Extends q) (hrange : e.RangeAt p s pos h) :
    e.RangeAt q s pos h := by
  cases e with
  | tryCatch start stop handler caught =>
    obtain ⟨hstart, hstop, hhandler, hcaught⟩ := hrange
    exact ⟨hstart, hstop, hhandler, hcaught.mono hp⟩
  | _ => exact hrange.elim

theorem CodeEvent.RangeAt.shown {T : Type} {t : Table} {p : Pool} {s : Session} {pos : T → Nat}
    {e : CodeEvent T} {h : Handler} {row : HandlerInfo} (hwf : p.Wf) (hrange : e.RangeAt p s pos h)
    (hindexed : h.caught = [] ∧ h.caughtIndex = 0 ∨ p.at? h.caughtIndex = some (.classRef h.caught))
    (hstands : h.Stands t (ClassBody.positionIn s) row)
    (hplaces : ∀ l ∈ [h.start, h.stop, h.handler], (s.spot l).position < 65536) :
    e.RangeShown t pos row := by
  have hposition (l : LabelId) (hl : l ∈ [h.start, h.stop, h.handler]) :
      ClassBody.positionIn s l % 65536 = (s.spot l).position := by
    have hsame : ClassBody.positionIn s l = (s.spot l).position := by
      unfold ClassBody.positionIn Session.spot
      cases s.labels[l]? <;> rfl
    rw [hsame, Nat.mod_eq_of_lt (hplaces l hl)]
  cases e with
  | tryCatch start stop handler caught =>
    obtain ⟨hstart, hstop, hhandler, hcaught⟩ := hrange
    refine ⟨?_, ?_, ?_, ?_⟩
    · rw [hstands.start, hposition _ (by simp), hstart]
    · rw [hstands.stop, hposition _ (by simp), hstop]
    · rw [hstands.handler, hposition _ (by simp), hhandler]
    · -- the name that was recorded is the one that the index stands for
      have hname : h.caught = caught := by
        rcases hindexed with ⟨hnone, hzero⟩ | hat
        · rcases hcaught with ⟨rfl, -⟩ | ⟨-, hhas⟩
          · exact hnone
          · have hpos := hwf.at?_pos hhas.1
            omega
        · rcases hcaught with ⟨-, hzero⟩ | ⟨-, hhas⟩
          · have hpos := hwf.at?_pos hat
            omega
          · simpa using hat.symm.trans hhas.1
      rw [← hname]
      exact hstands.caught
  | _ => exact hrange.elim

theorem Listing.CodeOf.foundIn {l : Listing} {own : LabelId → Prop} {items : List Item}
    {u : Method.State} {pos : Text → Nat} (h : l.CodeOf u pos) (hdone : Method.Done own items u)
    (hlimit : u.2.code.size ≤ Method.limit) {i : Instruction Text} (hi : .instruction i ∈ l.events)
    {q : Pool} (hwf : q.Wf) (hext : u.1.1.Extends q) (hindexed : u.2.Indexed q) {t : Table}
    {access : Flags} {name desc : Nat} {major : Int} {store : AnnotationStore} {info : MemberInfo}
    (hmember : MemberStands t access name desc
      (u.2.parts major (ClassBody.positionIn u.1.2) store) info) : l.FoundIn t q info := by
  obtain ⟨a, ha, hname, code, hrun, hstands⟩ := exists_attribute hmember.attributes _ "Code" _
    mem_cons_self (by simpa using h.ne_zero hi)
  obtain ⟨⟨ds, hds, hfollows⟩, hranges⟩ := h
  refine ⟨a, ha, hname, code, hrun, pos, ⟨ds, ?_, ?_⟩, ?_⟩
  · rw [hstands.code]
    exact hds.mono hext
  · rw [hstands.code]
    exact (Array.length_toList : u.2.code.toList.length = u.2.code.size) ▸ hfollows
  · have hrows : Forall₂ (fun h row => Handler.Stands t (ClassBody.positionIn u.1.2) h row ∧
        h ∈ u.2.handlers) u.2.handlers.toList code.handlers :=
      forall₂_mem hstands.handlers fun h hh _ hrow => ⟨hrow, Array.mem_toList_iff.1 hh⟩
    refine forall₂_trans hranges hrows ?_
    rintro e - h row hrange ⟨hrow, hh⟩
    refine (hrange.mono hext).shown hwf (hindexed.handlers h hh) hrow fun k hk => ?_
    have hown : own k := by
      obtain ⟨hstart, hstop, hhandler, -⟩ := hdone.handlers h hh
      simp only [mem_cons, not_mem_nil, or_false] at hk
      rcases hk with rfl | rfl | rfl
      · exact hstart
      · exact hstop
      · exact hhandler
    exact Nat.lt_succ_of_le (hdone.position_le hlimit hown)

theorem ClassSource.defines_of_check {s : ClassSource} {c : CheckedClass} (h : s.check = .ok c)
    {m : CheckedMethod} (hm : m ∈ c.methods) {l : Listing} (hl : m.code = some l)
    {e : CodeEvent Text} (he : e ∈ l.events) {t : Text} (ht : t ∈ e.targets) :
    .label t ∈ l.events := by
  obtain ⟨name, code, hread⟩ := s.exists_of_check h hm hl
  obtain ⟨L, hlisted, hlabels, -⟩ := Listing.listed_read name code
  rw [hread] at hlisted hlabels
  exact mem_filterMap_placed?.1 ((hlabels t).1 ((hlisted e he).targets t ht))

namespace CheckedClass

open ClassBody ClassM

variable {c : CheckedClass} {compute : Compute} {options : Options} {source : ClassSource}
  {x y z : State}

/-- Before any widening, the code of a method is that of its listing. -/
theorem codeOf_recorded (hcheck : source.check = .ok c) (hfits : c.Fits) {i : Nat}
    {m : CheckedMethod} (hm : c.methods[i]? = some m) {l : Listing} (hl : m.code = some l)
    {own : LabelId → Prop} {u v : Method.State}
    (hrecorded : Recorded c.numbering m i c.number x own u v) (hcompute : x.2.compute ≠ .frames)
    (hlimit : (x.2.methodAt i).code.size ≤ 65535) :
    ∃ pos, l.CodeOf (x.1, x.2.methodAt i) pos := by
  have hmem : m ∈ c.methods := mem_of_getElem? hm
  have hregular := source.regular_of_check hcheck hfits m hmem l hl
  have hown := own_of_recorded hm hrecorded hl
  obtain ⟨s, hcreated⟩ := hrecorded.blank
  obtain ⟨items, hclosed, htraced, hranges, -⟩ := (hrecorded.assembles hl
    (fun e he => (hregular e he).1) (fun e he => (hregular e he).2) hown).traced
      (hcreated.compute ▸ hcompute)
  have hcode : (x.2.methodAt i).code = v.2.code := by rw [hrecorded.methodAt]
  have hhandlers : (x.2.methodAt i).handlers = v.2.handlers := by rw [hrecorded.methodAt]
  rw [hcode] at hlimit
  refine ⟨(v.1.2.positions.pos ∘ c.number) ∘ ListingLabel.mk i,
    ⟨(placed 0 items).map (readAt v.1.2.positions), ?_, ?_⟩, ?_⟩
  · rw [hcode]
    exact (hclosed.toDone.reads hlimit).mono hrecorded.extends_
  · rw [hcode, hclosed.toDone.codeSize]
    have hnumbered : l.numbered i c.number = (l.events.map (mapTargets (ListingLabel.mk i))).map
        (mapTargets c.number) := by
      rw [Listing.numbered, map_map]
      rfl
    exact (hnumbered ▸ htraced.follows).of_mapTargets.of_mapTargets
  · -- the labels of a range are defined, so they have positions
    have hplace {e : CodeEvent Text} (he : e ∈ l.events) {t : Text} (ht : t ∈ e.targets) :
        (x.1.2.spot (c.number ⟨i, t⟩)).position = v.1.2.positions.pos (c.number ⟨i, t⟩) := by
      have hlabel : .label (c.number ⟨i, t⟩) ∈ l.numbered i c.number :=
        mem_map.2 ⟨_, source.defines_of_check hcheck hmem hl he ht, rfl⟩
      obtain ⟨o, ho⟩ := htraced.resolved hlabel
      have hlt : c.number ⟨i, t⟩ < v.1.2.labels.size := Method.lt_size_of_position ho
      rw [hrecorded.spot _ (hown _ hlabel _ (by simp [targets])) hlt, Positions.pos, ho]
      exact (Session.positions_eq_some.1 ho).2
    have hnumbered : (l.numbered i c.number).filter isRange =
        (l.events.filter isRange).map fun e =>
          (e.mapTargets (ListingLabel.mk i)).mapTargets c.number := by
      rw [Listing.numbered, filter_map]
      congr 2
      funext e
      simp
    rw [hnumbered, forall₂_map_left_iff] at hranges
    rw [hhandlers]
    refine forall₂_mem hranges fun e he row hrow => ?_
    obtain ⟨he, hkind⟩ := mem_filter.1 he
    cases e with
    | tryCatch start stop handler caught =>
      obtain ⟨hstart, hstop, hhandler, hcaught⟩ := hrow
      rw [CodeEvent.RangeAt, hstart, hstop, hhandler]
      exact ⟨hplace he (by simp [targets]), hplace he (by simp [targets]),
        hplace he (by simp [targets]), hcaught.mono hrecorded.extends_⟩
    | _ => cases hkind

/-- Widening keeps the code of a method that of its listing, with moved labels. -/
theorem codeOf_widen (hcheck : source.check = .ok c) (hfits : c.Fits) (hcompute : compute ≠ .frames)
    (htaken : c.TakenBy (create compute options) x) (hwiden : Ends widen x () y)
    (hfail : y.1.1.failure = none) {i : Nat} {m : CheckedMethod} (hm : c.methods[i]? = some m)
    {l : Listing} (hl : m.code = some l) (hlimit : (y.2.methodAt i).code.size ≤ Method.limit) :
    ∃ pos, l.CodeOf (y.1, y.2.methodAt i) pos := by
  have hregular := source.regular_of_check hcheck hfits
  have hfail' : x.1.1.failure = none :=
    (grows_widenAll hwiden (wf_takenBy hregular htaken)).2.no_failure hfail
  obtain ⟨-, hcount, -, hx, hall⟩ := recorded_takenBy hregular hfail' htaken
  obtain ⟨own, u, v, hrecorded⟩ := hall i m hm
  obtain ⟨-, hwidened, -⟩ := widened_widen (complete_takenBy hregular hfail' htaken) hfail hwiden
  have hi : i < x.2.written.size := hcount ▸ (List.getElem?_eq_some_iff.1 hm).1
  obtain ⟨hlimit₀, φ, ds, ds', hds, hds', hwidens, htables⟩ := (hwidened.evolves i hi).moved hlimit
  obtain ⟨pos, ⟨es, hes, hfollows⟩, hranges⟩ := codeOf_recorded hcheck hfits hm hl hrecorded
    (hx ▸ hcompute) hlimit₀
  obtain rfl := hds.unique hes
  refine ⟨φ ∘ pos, ⟨ds', hds', ?_⟩, forall₂_trans hranges htables ?_⟩
  · have hsize (b : Buffer) : b.size = b.toList.length := Array.length_toList.symm
    rw [hsize] at hfollows ⊢
    exact hfollows.widensOften hwidens
  · rintro e - a b hrange hmoved
    cases e with
    | tryCatch start stop handler caught =>
      obtain ⟨hstart, hstop, hhandler, hcaught⟩ := hrange
      refine ⟨hmoved.start.trans (congrArg φ hstart), hmoved.stop.trans (congrArg φ hstop),
        hmoved.handler.trans (congrArg φ hhandler), ?_⟩
      rw [hmoved.caught]
      exact hcaught.mono hwidened.extends_
    | _ => exact hrange.elim

theorem counted_number (hregular : ∀ m ∈ c.methods, m.Regular) {e : CodeEvent LabelId}
    (he : ClassEvent.code e ∈ ClassEvent.number c.events) : e.Counted := by
  obtain ⟨first, hfirst, hsplit⟩ := c.map_events
  rw [hsplit] at he
  simp only [mem_append, mem_singleton, reduceCtorEq, or_false] at he
  rcases he with he | he
  · exact (hfirst _ he).elim
  · exact counted_events hregular he

theorem prepared_takenBy (hregular : ∀ m ∈ c.methods, m.Regular)
    (htaken : c.TakenBy (create compute options) x) : x.2.Prepared x.1.1 := by
  obtain ⟨w, hlabels, hevents⟩ := htaken
  obtain ⟨hbeside, -, hbody⟩ := ends_newLabels hlabels
  obtain ⟨vs, hvs, -, -⟩ := exists_visits_all hevents fun _ => counted_number hregular
  have hw : w.2.Prepared w.1.1 := by
    rw [hbody]
    exact (Call.prepared_create compute options).mono hbeside.grows.onward
  exact ((Visit.readies_runAll vs).run _ _ _ hvs).prepared hw

/-- The events of a class describe the class that the source gives. -/
theorem described_takenBy (hregular : ∀ m ∈ c.methods, m.Regular)
    (htaken : c.TakenBy (create compute options) x) (hfail : x.1.1.failure = none) :
    Described c.outline x := by
  obtain ⟨w, hlabels, hevents⟩ := htaken
  obtain ⟨hbeside, -, hbody⟩ := ends_newLabels hlabels
  obtain ⟨hwf, -, hstart⟩ := start_create compute options
  have hw : Bodied {} w := by
    rw [hstart] at hbody
    refine ⟨(hbeside.grows hwf).1, ?_, ?_, ?_, ?_⟩
    · exact .inl ⟨rfl, by rw [hbody]⟩
    · exact .inl ⟨rfl, by rw [hbody]⟩
    · rw [hbody]
      exact .nil
    · rw [hbody]
      exact .nil
  have hcounted := fun e => counted_number hregular (e := e)
  have houtline : (ClassEvent.number c.events).foldl Outline.takeEvent {} = c.outline := by
    rw [← Outline.foldl_events, ClassEvent.number, foldl_map]
    simp only [Outline.takeEvent_mapTargets]
  obtain ⟨rest, hrest⟩ : ∃ rest, ClassEvent.number c.events =
      .header c.version c.access.toNat c.name c.signature c.super c.interfaces :: rest := ⟨_, rfl⟩
  rw [hrest] at hevents houtline hcounted
  obtain ⟨o, w', hfirst, hevents⟩ := hevents.bind
  obtain ⟨_, w'', hheader, e⟩ := hfirst.bind
  obtain ⟨rfl, rfl⟩ := e.pure
  obtain ⟨vs, hvs, hcountedVs, htake⟩ := exists_visits_all hevents fun e he =>
    hcounted e (mem_cons_of_mem _ he)
  have hwf' : w''.1.1.Wf := ((beside_header ..).run _ _ _ hheader).grows hw.wf |>.1
  have hfail' : w''.1.1.failure = none :=
    (Visit.grows_runAll hcountedVs hvs hwf').2.no_failure hfail
  have hx := Visit.described_runAll hcountedVs (described_header hw hfail' hheader) hfail hvs
  rw [htake] at hx
  exact houtline ▸ hx

/-- No list of the class that an assembler records has more entries than its count can hold. -/
def HasRoom (c : CheckedClass) (compute : Compute) (options : Options) : Prop :=
  ∀ x out z, c.TakenBy (create compute
      { options with defined := options.defined ++ [c.definition] }) x →
    Ends toBytes x (.ok out) z → z.2.Fits z.1.2 z.1.1

end CheckedClass

/-! ## A range of code with a handler -/

namespace Listing

/-- A listing with a constant, a jump and a range of code that a handler protects. -/
def guarded : Text := "A:\nldc 70000\npop\ngoto B\nB:\nreturn\ntrycatch A B B E"

def guardedEvents : List (CodeEvent Text) := [
  .label "A", .instruction (.constant (.int32 70000)), .instruction (.plain 87),
  .instruction (.jump 167 "B"), .label "B", .instruction (.plain 177),
  .tryCatch "A" "B" "B" "E"]

theorem event?_tryCatch {start stop handler caught : Text} {r : Reading} (hstart : start ∈ r.labels)
    (hstop : stop ∈ r.labels) (hhandler : handler ∈ r.labels) :
    (event? (.ok ["trycatch", start, stop, handler, caught])).run r =
      (some (.tryCatch start stop handler caught), r) := by
  have hattempt {l : Text} (hl : l ∈ r.labels) :
      (attempt (label l)).run.run r = (some (some l), r) := by
    show ((fun p => (some p.1, p.2)) ((label l).run.run r)) = _
    rw [run_label hl]
  simp only [event?, definedLabel?, statement]
  rw [if_neg (by decide +kernel), if_neg (by decide +kernel), if_pos (by decide +kernel)]
  exact (run_bind_of_some (hattempt hstart)).trans ((run_bind_of_some (hattempt hstop)).trans
    (run_bind_of_some (hattempt hhandler)))

theorem run_constant (r : Reading) : (constant ["70000"]).run.run r = (some (.int32 70000), r) := by
  have hread : Text.endsWith "70000" "L" = false ∧ Literal.integer? "70000" = some 70000 ∧
      Text.ofString "70000" = 55 :: [48, 48, 48, 48] := by
    decide +kernel
  obtain ⟨hlong, hinteger, htext⟩ := hread
  have hnumber : number "70000" = pure (.int32 70000) := by
    simp only [number, hlong, hinteger]
    rfl
  rw [htext] at hnumber ⊢
  simp only [constant]
  rw [if_neg (by decide), hnumber]
  rfl

theorem read_guarded (method : Text) : read method guarded = ({ events := guardedEvents }, []) := by
  let words : List (List Text) := [["A:"], ["ldc", "70000"], ["pop"], ["goto", "B"], ["B:"],
    ["return"], ["trycatch", "A", "B", "B", "E"]]
  have hlines : (Text.split 10 guarded).map tokens = words.map .ok := by decide +kernel
  have hlabels : words.map definedLabel? =
      [some (Text.ofString "A"), none, none, none, some (Text.ofString "B"), none, none] := by
    decide +kernel
  simp only [words, map_cons, map_nil, cons.injEq, and_true] at hlabels
  obtain ⟨h₁, h₂, h₃, h₄, h₅, h₆, h₇⟩ := hlabels
  let r : Reading :=
    { method, line := 7, labels := ((∅ : Std.HashSet Text).insert "A").insert "B" }
  have hcollect : ((collectLabels (words.map .ok) 1).run { method }).2 = r := by
    have hne : Text.ofString "A" ≠ Text.ofString "B" := by decide
    simp only [words, map_cons, map_nil, run_collectLabels_cons, run_collectLabel, lineLabel?,
      Except.toOption, Option.bind, h₁, h₂, h₃, h₄, h₅, h₆, h₇]
    simp [r, hne]
    rfl
  have hldc (r : Reading) : (event? (.ok ["ldc", "70000"])).run r =
      (some (.instruction (.constant (.int32 70000))), r) := by
    rw [event?_of_lookup .ldc h₂ (by decide +kernel)]
    exact run_bind_of_some (run_bind_of_some (run_constant r))
  have hpop (r : Reading) :
      (event? (.ok ["pop"])).run r = (some (.instruction (.plain 87)), r) := by
    rw [event?_of_lookup .pop h₃ (by decide +kernel)]
    rfl
  have hreturn (r : Reading) :
      (event? (.ok ["return"])).run r = (some (.instruction (.plain 177)), r) := by
    rw [event?_of_lookup .vreturn h₆ (by decide +kernel)]
    rfl
  refine read_of_run hlines (?_ : _ = (guardedEvents.toArray, r))
  rw [hcollect]
  simp only [words, map_cons, map_nil, run_readEvents_cons, event?_label h₁, event?_label h₅, hldc,
    hpop, hreturn]
  rw [event?_goto h₄ (by simp [r]), event?_tryCatch (by simp [r]) (by simp [r]) (by simp [r])]
  rfl

end Listing

namespace CheckedClass

open ClassBody ClassM

def guarded : CheckedClass := ofListing { events := Listing.guardedEvents }

theorem guarded_fits : guarded.Fits := by
  intro m hm l hl e he
  obtain rfl := mem_singleton.1 hm
  obtain rfl := Option.some.inj hl
  simp only [Listing.guardedEvents, mem_cons, not_mem_nil, or_false] at he
  rcases he with rfl | rfl | rfl | rfl | rfl | rfl | rfl <;> trivial

/-- The events of the class, with numbers for its two labels. -/
def guardedEvents (a b : LabelId) : List (ClassEvent LabelId) := [
  .header 52 0 "T" "" "O" [], .method 0 "m" "()V" "" [], .beginCode, .code (.label a),
  .code (.instruction (.constant (.int32 70000))), .code (.instruction (.plain 87)),
  .code (.instruction (.jump 167 b)), .code (.label b), .code (.instruction (.plain 177)),
  .code (.tryCatch a b b "E"), .code (.maxs 0 0), .finishMethod, .finish]

theorem number_guarded : guarded.numbering.size = 2 ∧
    ClassEvent.number guarded.events = guardedEvents 0 1 := by
  have hcounts {a b : ListingLabel} (hne : a ≠ b) {n : Numbering ListingLabel}
      (hn : n = ((((((∅ : Numbering ListingLabel).note a).note b).note b).note a).note b).note b) :
      n.size = 2 ∧ n.getD a 0 = 0 ∧ n.getD b 0 = 1 := by
    rw [hn]
    simp [Numbering.note, hne, hne.symm, Std.HashMap.getD_insertIfNew,
      Std.HashMap.size_insertIfNew]
  have hnumber (g : ListingLabel → LabelId) : guarded.events.map (·.mapTargets g) =
      guardedEvents (g ⟨0, "A"⟩) (g ⟨0, "B"⟩) := rfl
  obtain ⟨hsize, hfirst, hsecond⟩ :=
    hcounts (by decide : (⟨0, "A"⟩ : ListingLabel) ≠ ⟨0, "B"⟩) (rfl : guarded.numbering = _)
  refine ⟨hsize, (hnumber (guarded.numbering.getD · 0)).trans ?_⟩
  rw [hfirst, hsecond]

end CheckedClass

end ClassAssembler
