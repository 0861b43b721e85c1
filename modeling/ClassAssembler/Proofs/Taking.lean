import ClassAssembler.Proofs.Writing

/-!
# Taking events

What a method takes is laid out in its code in order: instructions as the items they are written as,
and labels at the offset between them (`CodeEvent.Traced`).  Exception ranges, line numbers and
named local variables become rows of the method's tables, in order (`Method.Takes`).
-/

namespace ClassAssembler

open List

set_option synthInstance.maxSize 400

open Machine Item

/-- The index of a caught class; the empty name stands for every exception. -/
def Pool.Catches (p : Pool) (i : Nat) (caught : Text) : Prop :=
  caught = [] ∧ i = 0 ∨ caught ≠ [] ∧ p.Has i (.classRef caught)

theorem Pool.Catches.mono {p q : Pool} (h : p.Extends q) {i : Nat} {caught : Text}
    (hc : p.Catches i caught) : q.Catches i caught :=
  hc.imp_right fun hc => ⟨hc.1, hc.2.mono h⟩

namespace CodeEvent

variable {T : Type}

variable {e : CodeEvent LabelId} {p q : Pool} {r r' : Positions}

def isRange : CodeEvent T → Bool
  | tryCatch .. => true
  | _ => false

def isLine : CodeEvent T → Bool
  | line .. => true
  | _ => false

def isVariable : CodeEvent T → Bool
  | localVariable .. => true
  | _ => false

def RangeRow (p : Pool) : CodeEvent LabelId → Handler → Prop
  | tryCatch start stop handler caught, row =>
    row.start = start ∧ row.stop = stop ∧ row.handler = handler ∧ p.Catches row.caughtIndex caught
  | _, _ => False

def LineOf (r : Positions) : CodeEvent LabelId → LineRow → Prop
  | line number start, row => r start = some row.offset ∧ row.line = number
  | _, _ => False

def VariableRow (p : Pool) (r : Positions) : CodeEvent LabelId → LocalRow → Prop
  | localVariable name desc _ start stop slot, row =>
    r start = some row.start ∧ (∃ e, r stop = some e ∧ row.start + row.length = e) ∧
      p.Has row.name (.utf8 name) ∧ p.Has row.desc (.utf8 desc) ∧ row.slot = slot
  | _, _ => False

/-- The index of the signature of a local variable, which not every variable has. -/
def SignatureAt (p : Pool) : CodeEvent T → Option Nat → Prop
  | localVariable _ _ signature _ _ _, index =>
    signature = [] ∧ index = none ∨
      signature ≠ [] ∧ ∃ i, index = some i ∧ p.Has i (.utf8 signature)
  | _, _ => False

/-- The event is the row of a named local variable and the index of its signature. -/
def NamedRow (p : Pool) (r : Positions) (e : CodeEvent LabelId) (x : LocalRow × Option Nat) :
    Prop :=
  e.VariableRow p r x.1 ∧ e.SignatureAt p x.2

/-- The items that an event is laid out as at an offset. -/
inductive Lays (p : Pool) (r : Positions) (o : Nat) : CodeEvent LabelId → List Item → Prop
  | instruction {i : Instruction LabelId} {new : List Item} (h : i.Forms p r o new) :
      Lays p r o (.instruction i) new
  | label {l : LabelId} (h : r l = some o) : Lays p r o (.label l) []
  | frame (f : FrameEvent LabelId) : Lays p r o (.frame f) []
  | tryCatch (start stop handler : LabelId) (caught : Text) :
      Lays p r o (.tryCatch start stop handler caught) []
  | localVariable (name desc signature : Text) (start stop : LabelId) (slot : Int) :
      Lays p r o (.localVariable name desc signature start stop slot) []
  | line (number : Int) (start : LabelId) : Lays p r o (.line number start) []

/-- The items that events are laid out as from an offset on. -/
inductive Traced (p : Pool) (r : Positions) : Nat → List (CodeEvent LabelId) → List Item → Prop
  | nil (o : Nat) : Traced p r o [] []
  | cons {o : Nat} {e : CodeEvent LabelId} {es : List (CodeEvent LabelId)} {new items : List Item}
      (here : e.Lays p r o new) (rest : Traced p r (stop o new) es items) :
      Traced p r o (e :: es) (new ++ items)

def Regular : CodeEvent T → Prop
  | instruction i => i.Regular
  | _ => True

theorem Lays.mono {o : Nat} {new : List Item} (h : e.Lays p r o new) (hp : p.Extends q)
    (hr : ∀ l t, r l = some t → r' l = some t) : e.Lays q r' o new := by
  cases h with
  | instruction h => exact .instruction (h.mono hp hr)
  | label h => exact .label (hr _ _ h)
  | frame f => exact .frame f
  | tryCatch => exact .tryCatch ..
  | localVariable => exact .localVariable ..
  | line => exact .line ..

theorem Traced.mono {o : Nat} {es : List (CodeEvent LabelId)} {items : List Item}
    (h : Traced p r o es items) (hp : p.Extends q) (hr : ∀ l t, r l = some t → r' l = some t) :
    Traced q r' o es items := by
  induction h with
  | nil o => exact .nil o
  | cons here _ ih => exact .cons (here.mono hp hr) ih

theorem RangeRow.mono (hp : p.Extends q) {row : Handler} (h : e.RangeRow p row) :
    e.RangeRow q row := by
  cases e with
  | tryCatch start stop handler caught =>
    obtain ⟨hs, he, hh, hc⟩ := h
    exact ⟨hs, he, hh, hc.mono hp⟩
  | _ => exact h.elim

theorem LineOf.mono (hr : ∀ l t, r l = some t → r' l = some t) {row : LineRow}
    (h : e.LineOf r row) : e.LineOf r' row := by
  cases e with
  | line number start => exact ⟨hr _ _ h.1, h.2⟩
  | _ => exact h.elim

theorem VariableRow.mono (hp : p.Extends q) (hr : ∀ l t, r l = some t → r' l = some t)
    {row : LocalRow} (h : e.VariableRow p r row) : e.VariableRow q r' row := by
  cases e with
  | localVariable name desc signature start stop slot =>
    obtain ⟨hs, ⟨t, ht, hlen⟩, hname, hdesc, hslot⟩ := h
    exact ⟨hr _ _ hs, ⟨t, hr _ _ ht, hlen⟩, hname.mono hp, hdesc.mono hp, hslot⟩
  | _ => exact h.elim

theorem VariableRow.eq_desc (hp : p.Wf) {name desc desc' signature signature' : Text}
    {start stop : LabelId} {slot : Int} {row row' : LocalRow}
    (h : (localVariable name desc signature start stop slot).VariableRow p r row)
    (h' : (localVariable name desc' signature' start stop slot).VariableRow p r row') :
    row' = { row with desc := row'.desc } := by
  obtain ⟨hs, ⟨t, ht, hlen⟩, hname, -, hslot⟩ := h
  obtain ⟨hs', ⟨t', ht', hlen'⟩, hname', -, hslot'⟩ := h'
  have hstart : row'.start = row.start := Option.some.inj (hs'.symm.trans hs)
  obtain rfl : t' = t := Option.some.inj (ht'.symm.trans ht)
  obtain ⟨start', length', name', desc', slot'⟩ := row'
  obtain rfl : start' = row.start := hstart
  obtain rfl : length' = row.length := by
    dsimp only at hlen'
    omega
  obtain rfl : name' = row.name := hp.index_unique hname'.1 hname.1
  obtain rfl : slot' = row.slot := hslot'.trans hslot.symm
  rfl

theorem SignatureAt.mono (hp : p.Extends q) {e : CodeEvent T} {index : Option Nat}
    (h : e.SignatureAt p index) : e.SignatureAt q index := by
  cases e with
  | localVariable name desc signature start stop slot =>
    exact h.imp_right fun ⟨hne, i, hi, hhas⟩ => ⟨hne, i, hi, hhas.mono hp⟩
  | _ => exact h.elim

theorem NamedRow.mono (hp : p.Extends q) (hr : ∀ l t, r l = some t → r' l = some t)
    {x : LocalRow × Option Nat} (h : e.NamedRow p r x) : e.NamedRow q r' x :=
  ⟨h.1.mono hp hr, h.2.mono hp⟩

end CodeEvent

/-- The rows in the table of types: one for every variable with a signature. -/
def LocalRow.typeRows (rows : List (LocalRow × Option Nat)) : List LocalRow :=
  rows.filterMap fun x => x.2.map fun desc => { x.1 with desc }

@[simp] theorem LocalRow.typeRows_nil : typeRows [] = [] := rfl

@[simp] theorem LocalRow.typeRows_append (rows rows' : List (LocalRow × Option Nat)) :
    typeRows (rows ++ rows') = typeRows rows ++ typeRows rows' :=
  filterMap_append

theorem LocalRow.mem_typeRows {rows : List (LocalRow × Option Nat)} {row : LocalRow} :
    row ∈ typeRows rows ↔ ∃ x ∈ rows, ∃ desc, x.2 = some desc ∧ { x.1 with desc } = row := by
  simp [typeRows, Option.map_eq_some_iff]

namespace Method

/-- A method without its code, its tables and what the analysis of its blocks finds out. -/
def bare (m : Method) : Method :=
  { m.outline with handlers := #[], localRows := #[], localTypeRows := #[], lineRows := #[] }

/-- What taking events does, apart from the code: rows are added to the tables, labels keep the
positions they have, and the rest of the method stays. -/
structure Takes (own : LabelId → Prop) (es : List (CodeEvent LabelId)) (u v : State) : Prop where
  extends_ : u.1.1.Extends v.1.1
  size : u.1.2.labels.size ≤ v.1.2.labels.size
  stays : ∀ l o, u.1.2.positions l = some o → v.1.2.positions l = some o
  others : ∀ l, ¬ own l → v.1.2.spot l = u.1.2.spot l
  apart : ∀ l n, ¬ own l → v.1.2.next l = some n → u.1.2.next l = some n
  bare : v.2.bare = u.2.bare
  handlers : ∃ rows, v.2.handlers.toList = u.2.handlers.toList ++ rows ∧
    Forall₂ (CodeEvent.RangeRow v.1.1) (es.filter CodeEvent.isRange) rows
  lines : ∃ rows, v.2.lineRows.toList = u.2.lineRows.toList ++ rows ∧
    Forall₂ (CodeEvent.LineOf v.1.2.positions) (es.filter CodeEvent.isLine) rows
  locals : ∃ rows : List (LocalRow × Option Nat),
    v.2.localRows.toList = u.2.localRows.toList ++ rows.map Prod.fst ∧
    v.2.localTypeRows.toList = u.2.localTypeRows.toList ++ LocalRow.typeRows rows ∧
    Forall₂ (CodeEvent.NamedRow v.1.1 v.1.2.positions) (es.filter CodeEvent.isVariable) rows

section

variable {own : LabelId → Prop} {es fs : List (CodeEvent LabelId)} {u v w : State}

theorem Takes.nil (u : State) : Takes own [] u u :=
  ⟨.refl _, Nat.le_refl _, fun _ _ h => h, fun _ _ => rfl, fun _ _ _ h => h, rfl,
    ⟨[], by simp, .nil⟩, ⟨[], by simp, .nil⟩, ⟨[], by simp, by simp, .nil⟩⟩

theorem Takes.append (h : Takes own es u v) (h' : Takes own fs v w) :
    Takes own (es ++ fs) u w := by
  obtain ⟨hs, hhs, hrows⟩ := h.handlers
  obtain ⟨hs', hhs', hrows'⟩ := h'.handlers
  obtain ⟨ls, hls, hlines⟩ := h.lines
  obtain ⟨ls', hls', hlines'⟩ := h'.lines
  obtain ⟨vs, hvs, hts, hlocals⟩ := h.locals
  obtain ⟨vs', hvs', hts', hlocals'⟩ := h'.locals
  refine ⟨h.extends_.trans h'.extends_, Nat.le_trans h.size h'.size,
    fun l o ho => h'.stays l o (h.stays l o ho), fun l hl => (h'.others l hl).trans (h.others l hl),
    fun l n hl hn => h.apart l n hl (h'.apart l n hl hn), h'.bare.trans h.bare,
    ⟨hs ++ hs', ?_, ?_⟩, ⟨ls ++ ls', ?_, ?_⟩,
    ⟨vs ++ vs', ?_, ?_, ?_⟩⟩
  · rw [hhs', hhs, append_assoc]
  · rw [filter_append]
    exact rel_append (hrows.imp fun _ _ hr => hr.mono h'.extends_) hrows'
  · rw [hls', hls, append_assoc]
  · rw [filter_append]
    exact rel_append (hlines.imp fun _ _ hr => hr.mono h'.stays) hlines'
  · rw [hvs', hvs, append_assoc, map_append]
  · rw [hts', hts, append_assoc, LocalRow.typeRows_append]
  · rw [filter_append]
    exact rel_append (hlocals.imp fun _ _ hr => hr.mono h'.extends_ h'.stays) hlocals'

theorem Moves.takes (h : Moves own u v) : Takes own [] u v := by
  have hbare : v.2.bare = u.2.bare := by
    simp only [Method.bare, h.outline]
  have hhandlers : v.2.handlers = u.2.handlers :=
    (congrArg Method.handlers h.outline : v.2.outline.handlers = u.2.outline.handlers)
  have hlines : v.2.lineRows = u.2.lineRows :=
    (congrArg Method.lineRows h.outline : v.2.outline.lineRows = u.2.outline.lineRows)
  have hlocals : v.2.localRows = u.2.localRows :=
    (congrArg Method.localRows h.outline : v.2.outline.localRows = u.2.outline.localRows)
  have htypes : v.2.localTypeRows = u.2.localTypeRows :=
    (congrArg Method.localTypeRows h.outline : v.2.outline.localTypeRows =
      u.2.outline.localTypeRows)
  exact ⟨h.extends_, h.size, h.stays, h.others, h.apart, hbare, ⟨[], by simp [hhandlers], .nil⟩,
    ⟨[], by simp [hlines], .nil⟩, ⟨[], by simp [hlocals], by simp [htypes], .nil⟩⟩

theorem Takes.of_nil {e : CodeEvent LabelId} (h : Takes own [] u v) (hr : e.isRange = false)
    (hl : e.isLine = false) (hv : e.isVariable = false) : Takes own [e] u v := by
  refine ⟨h.extends_, h.size, h.stays, h.others, h.apart, h.bare, ?_, ?_, ?_⟩
  · simpa [hr] using h.handlers
  · simpa [hl] using h.lines
  · simpa [hv] using h.locals

theorem Emitted.tables {items : List Item} (he : Emitted own items u) (handlers : Array Handler)
    (localRows localTypeRows : Array LocalRow) (lineRows : Array LineRow) :
    Emitted own items (u.1, { u.2 with handlers, localRows, localTypeRows, lineRows }) :=
  ⟨⟨he.wf, he.base, he.code, he.waits, he.labels, he.pending⟩, he.sound, he.bounded, he.ahead,
    he.deferred, he.found, he.linked, he.entry, he.last⟩

structure TakesOne (own : LabelId → Prop) (items : List Item) (e : CodeEvent LabelId)
    (u v : State) : Prop where
  takes : Takes own [e] u v
  emitted : ∃ new, Emitted own (items ++ new) v ∧
    e.Lays v.1.1 v.1.2.positions (stop 0 items) new

end

end Method

namespace MethodM

open Method

variable {own : LabelId → Prop} {items : List Item} {u v : State}

variable {b : Bool} {slot : Int} {l start : LabelId} {x : MethodM Unit} {op : String}
  {desc name : Text}

theorem failure_of_fail {cause : Cause} {args : List Value}
    (e : Ends (liftM (PoolM.fail cause op args) : MethodM Unit) u () v) : v.1.1.failure ≠ none := by
  obtain ⟨h, -, -⟩ := ends_pool e
  rw [← PoolM.ends_fail.1 h]
  exact Pool.recordFailure_ne_none _ _

theorem ends_refusal {cause : Cause} {args : List Value}
    (e : Ends (do PoolM.fail cause op args; return false : MethodM Bool) u b v) :
    b = false ∧ v.1.1.failure ≠ none := by
  obtain ⟨_, w, h, e⟩ := e.bind
  obtain ⟨rfl, rfl⟩ := e.pure
  exact ⟨rfl, failure_of_fail h⟩

theorem ends_isLive (e : Ends (isLive op) u b v) :
    b = true ∧ u = v ∨ b = false ∧ v.1.1.failure ≠ none := by
  obtain ⟨failed, w, h, e⟩ := e.bind
  obtain ⟨h, hs, hm⟩ := ends_pool h
  obtain ⟨rfl, hp⟩ := PoolM.ends_hasFailed.1 h
  obtain rfl : u = w := Prod.ext (Prod.ext hp hs.symm) hm.symm
  split at e
  next hfailed =>
    obtain ⟨rfl, rfl⟩ := e.pure
    exact .inr ⟨rfl, by simpa [Option.isSome_iff_ne_none] using hfailed⟩
  next =>
    replace e := ends_get_bind.1 e
    split at e
    · exact .inr (ends_refusal e)
    · obtain ⟨rfl, rfl⟩ := e.pure
      exact .inl ⟨rfl, rfl⟩

theorem ends_whenLive (hfail : v.1.1.failure = none) (e : Ends (do if ← isLive op then x) u () v) :
    Ends x u () v := by
  obtain ⟨b, w, h, e⟩ := e.bind
  rcases ends_isLive h with ⟨rfl, rfl⟩ | ⟨rfl, hfail'⟩
  · exact e
  · obtain ⟨-, rfl⟩ := e.pure
    exact absurd hfail hfail'

theorem ends_isInCode (e : Ends (isInCode op) u b v) :
    b = true ∧ u = v ∨ b = false ∧ v.1.1.failure ≠ none := by
  obtain ⟨live, w, h, e⟩ := e.bind
  rcases ends_isLive h with ⟨rfl, rfl⟩ | ⟨rfl, hfail⟩
  · rw [if_pos rfl] at e
    replace e := ends_get_bind.1 e
    split at e
    · exact .inr (ends_refusal e)
    · replace e := ends_get_bind.1 e
      split at e
      · exact .inr (ends_refusal e)
      · obtain ⟨rfl, rfl⟩ := e.pure
        exact .inl ⟨rfl, rfl⟩
  · obtain ⟨rfl, rfl⟩ := e.pure
    exact .inr ⟨rfl, hfail⟩

theorem ends_inCode (hfail : v.1.1.failure = none) (e : Ends (do if ← isInCode op then x) u () v) :
    Ends x u () v := by
  obtain ⟨b, w, h, e⟩ := e.bind
  rcases ends_isInCode h with ⟨rfl, rfl⟩ | ⟨rfl, hfail'⟩
  · exact e
  · obtain ⟨-, rfl⟩ := e.pure
    exact absurd hfail hfail'

theorem takes_label (he : Emitted own items u) (hl : own l) (hfail : v.1.1.failure = none)
    (e : Ends (label l) u () v) : TakesOne own items (.label l) u v := by
  obtain ⟨b, ⟨u₁, m₁⟩, h, e⟩ := e.bind
  obtain ⟨h, rfl⟩ := h.lift
  obtain ⟨hb, rfl⟩ := SessionM.ends_label h
  split at e
  next => exact absurd hfail (failure_of_fail e)
  next hres =>
    have hnone : u.1.2.positions l = none := by
      rw [Session.positions_eq_none, Session.spot_of_label hb]
      exact Bool.of_not_eq_true hres
    obtain ⟨hv, hmoves, hpos⟩ := he.place hl hnone e
    exact ⟨hmoves.takes.of_nil rfl rfl rfl, [], by rwa [append_nil], .label hpos⟩

theorem takes_frame {f : FrameEvent LabelId} (he : Emitted own items u)
    (e : Ends (frame f) u () v) : TakesOne own items (.frame f) u v := by
  have hcalm : Calm own u v := e.keeps
  exact ⟨(hcalm.moves he.wf he.base he.last).takes.of_nil rfl rfl rfl, [],
    by rw [append_nil]; exact he.calm hcalm, .frame f⟩

theorem takes_range {stop handler : LabelId} {caught : Text} {i : Nat} {w : State}
    (he : Emitted own items u) (hcalm : Calm own u w) (hi : w.1.1.Catches i caught)
    (e : Ends (modify fun m : Method => { m with
      handlers := m.handlers.push { start, stop, handler, caught, caughtIndex := i } } :
        MethodM PUnit) w () v) :
    TakesOne own items (.tryCatch start stop handler caught) u v := by
  obtain rfl := e.modify
  have hsame : Takes own [] w w := .nil w
  have hrow : Takes own [.tryCatch start stop handler caught] w (w.1, { w.2 with
      handlers := w.2.handlers.push { start, stop, handler, caught, caughtIndex := i } }) :=
    ⟨hsame.extends_, hsame.size, hsame.stays, hsame.others, hsame.apart, rfl,
      ⟨[⟨start, stop, handler, caught, i⟩], Array.toList_push, .cons ⟨rfl, rfl, rfl, hi⟩ .nil⟩,
      hsame.lines, hsame.locals⟩
  refine ⟨(hcalm.moves he.wf he.base he.last).takes.append hrow, [], ?_, .tryCatch ..⟩
  rw [append_nil]
  exact (he.calm hcalm).tables _ _ _ _

theorem takes_tryCatch {stop handler : LabelId} {caught : Text} (he : Emitted own items u)
    (hfail : v.1.1.failure = none) (e : Ends (tryCatch start stop handler caught) u () v) :
    TakesOne own items (.tryCatch start stop handler caught) u v := by
  unfold tryCatch at e
  split at e
  next hempty =>
    exact takes_range he (Steps.refl u) (.inl ⟨isEmpty_iff.1 hempty, rfl⟩) e
  next hname =>
    obtain ⟨i, w, h, e⟩ := e.bind
    obtain ⟨hcalm, hat⟩ := ends_intern (PoolM.interns_classRef caught) he.wf h
    have hw : w.1.1.failure = none := by
      rw [← e.modify] at hfail
      exact hfail
    exact takes_range he hcalm
      (.inr ⟨fun h => hname (isEmpty_iff.2 h), (he.calm hcalm).wf.has hw hat⟩) e

theorem ends_requireResolved {s t : Pool × Session} (e : Ends (requireResolved op l) s b t) :
    b = true ∧ s = t ∧ s.2.positions l = some (s.2.spot l).position ∨
      b = false ∧ t.1.failure ≠ none := by
  obtain ⟨k, w, h, e⟩ := e.bind
  obtain ⟨hk, rfl⟩ := SessionM.ends_label h
  split at e
  next hres =>
    obtain ⟨rfl, rfl⟩ := e.pure
    refine .inl ⟨rfl, rfl, ?_⟩
    rw [Session.positions_eq_some, Session.spot_of_label hk]
    exact ⟨hres, rfl⟩
  next =>
    obtain ⟨_, w, h, e⟩ := e.bind
    obtain ⟨rfl, rfl⟩ := e.pure
    obtain ⟨h, -⟩ := h.lift
    refine .inr ⟨rfl, ?_⟩
    rw [← PoolM.ends_fail.1 h]
    exact Pool.recordFailure_ne_none _ _

theorem ends_resolved (hfail : v.1.1.failure = none)
    (e : Ends (do if ← requireResolved op l then x : MethodM Unit) u () v) :
    u.1.2.positions l = some (u.1.2.spot l).position ∧ Ends x u () v := by
  obtain ⟨b, ⟨w, m⟩, h, e⟩ := e.bind
  obtain ⟨h, rfl⟩ := h.lift
  rcases ends_requireResolved h with ⟨rfl, rfl, hpos⟩ | ⟨rfl, hfail'⟩
  · exact ⟨hpos, e⟩
  · obtain ⟨-, rfl⟩ := e.pure
    exact absurd hfail hfail'

theorem ends_label_position {b : Label}
    (e : Ends (liftM (SessionM.label l) : MethodM Label) u b v) :
    b.position = (u.1.2.spot l).position ∧ u = v := by
  obtain ⟨h, hm⟩ := e.lift
  obtain ⟨hb, hu⟩ := SessionM.ends_label h
  exact ⟨by rw [Session.spot_of_label hb]; rfl, Prod.ext hu hm⟩

theorem takes_line {number : Int} (he : Emitted own items u) (hfail : v.1.1.failure = none)
    (e : Ends (line number start) u () v) : TakesOne own items (.line number start) u v := by
  obtain ⟨hpos, e⟩ := ends_resolved hfail e
  obtain ⟨b, w, h, e⟩ := e.bind
  obtain ⟨hb, rfl⟩ := ends_label_position h
  obtain rfl := e.modify
  have htakes : Takes own [] u u := .nil u
  refine ⟨⟨htakes.extends_, htakes.size, htakes.stays, htakes.others, htakes.apart, rfl,
    htakes.handlers, ⟨[⟨b.position, number⟩], Array.toList_push, ?_⟩, htakes.locals⟩, [], ?_,
      .line ..⟩
  · exact .cons ⟨by rw [hb]; exact hpos, rfl⟩ .nil
  · rw [append_nil]
    exact he.tables _ _ _ _

instance grows_localRow (name desc : Text) (start stop slot : Int) :
    Keeps Pool.Grows (localRow name desc start stop slot) := by
  unfold localRow
  infer_instance

theorem ends_localRow {signature : Text} {stop : LabelId} {s t : Nat} {row : LocalRow}
    (hwf : u.1.1.Wf) (hs : u.1.2.positions start = some s) (ht : u.1.2.positions stop = some t)
    (hfail : v.1.1.failure = none)
    (e : Ends (liftM (localRow name desc s t slot) : MethodM LocalRow) u row v) :
    (CodeEvent.localVariable name desc signature start stop slot).VariableRow v.1.1 v.1.2.positions
      row := by
  obtain ⟨h, hsession, -⟩ := ends_pool e
  obtain ⟨n, p, h₁, h⟩ := h.bind
  obtain ⟨d, q, h₂, h⟩ := h.bind
  obtain ⟨rfl, rfl⟩ := h.pure
  obtain ⟨hreg₁, hn⟩ := PoolM.interns_utf8 name _ _ _ hwf h₁
  obtain ⟨hreg₂, hd⟩ := PoolM.interns_utf8 desc _ _ _ hreg₁.wf h₂
  refine ⟨?_, ⟨t, hsession ▸ ht, ?_⟩,
    hreg₂.wf.has hfail (hreg₂.extend.at? hn), hreg₂.wf.has hfail hd, rfl⟩
  · rw [hsession, Int.toNat_natCast]
    exact hs
  · dsimp only
    omega

/-- A row of the table of local variables is added; the table of their types has got one before if
there is a signature. -/
theorem takes_variableRow {signature : Text} {stop : LabelId} {s t : Nat} {w : State}
    {rows : Array LocalRow} (he : Emitted own items u) (hgrows : u.1.1.Grows w.1.1)
    (hsession : w.1.2 = u.1.2) (hm : w.2 = u.2) (hs : u.1.2.positions start = some s)
    (ht : u.1.2.positions stop = some t) (hrows : signature = [] ∧ rows = w.2.localTypeRows ∨
      signature ≠ [] ∧ ∃ row, rows = w.2.localTypeRows.push row ∧ (w.1.1.failure = none →
        (CodeEvent.localVariable name signature signature start stop slot).VariableRow w.1.1
          w.1.2.positions row))
    (hfail : v.1.1.failure = none) (e : Ends (do
      let row ← localRow name desc s t slot
      modify fun m => { m with localRows := m.localRows.push row }
      unless (← get).compute = .nothing do
        needLocals (localsFor (← isWideDescriptor desc) slot) : MethodM Unit)
      (w.1, { w.2 with localTypeRows := rows }) () v) :
    TakesOne own items (.localVariable name desc signature start stop slot) u v := by
  obtain ⟨row, w₁, h₁, e⟩ := e.bind
  obtain ⟨_, w₂, h₂, e⟩ := e.bind
  have hlast : Keeps (Calm own) (do
      unless (← get).compute = .nothing do
        needLocals (localsFor (← isWideDescriptor desc) slot) : MethodM Unit) := inferInstance
  have hcalm₂ : Calm own w₂ v := hlast.run _ _ _ e
  obtain rfl := h₂.modify
  have hwf : w.1.1.Wf := (hgrows he.wf).1
  have hgrows₁ : w.1.1.Grows w₁.1.1 := (ends_pool h₁).1.keeps
  have hfail₁ : w₁.1.1.failure = none := (hcalm₂.grows (hgrows₁ hwf).1).2.no_failure hfail
  have hrow : (CodeEvent.localVariable name desc signature start stop slot).VariableRow w₁.1.1
      w₁.1.2.positions row :=
    ends_localRow (u := (w.1, { w.2 with localTypeRows := rows })) hwf (hsession ▸ hs)
      (hsession ▸ ht) hfail₁ h₁
  obtain ⟨-, hsession₁, hm₁⟩ := ends_pool h₁
  -- the pool grows first, and then both tables do
  have hcalm : Calm own u (w₁.1, w.2) :=
    calm_pool (Steps.trans hgrows hgrows₁) (hsession₁.trans hsession) hm
  have hw₁ := he.calm hcalm
  have htakes : Takes own [.localVariable name desc signature start stop slot] (w₁.1, w.2)
      (w₁.1, { w₁.2 with localRows := w₁.2.localRows.push row }) := by
    rw [hm₁]
    refine ⟨.refl _, Nat.le_refl _, fun _ _ h => h, fun _ _ => rfl, fun _ _ _ h => h, rfl,
      ⟨[], by simp, .nil⟩, ⟨[], by simp, .nil⟩, ?_⟩
    rcases hrows with ⟨hnil, rfl⟩ | ⟨hne, row', rfl, hrow'⟩
    · exact ⟨[(row, none)], Array.toList_push, (append_nil _).symm,
        .cons ⟨hrow, .inl ⟨hnil, rfl⟩⟩ .nil⟩
    · have hrow' : (CodeEvent.localVariable name signature signature start stop slot).VariableRow
          w₁.1.1 w₁.1.2.positions row' :=
        (hrow' ((hgrows₁ hwf).2.no_failure hfail₁)).mono (hgrows₁ hwf).2 fun _ _ h => hsession₁ ▸ h
      refine ⟨[(row, some row'.desc)], Array.toList_push, ?_,
        .cons ⟨hrow, .inr ⟨hne, _, rfl, ?_⟩⟩ .nil⟩
      · rw [Array.toList_push, hrow.eq_desc (hgrows₁ hwf).1 hrow']
        rfl
      · exact hrow'.2.2.2.1
  have hw₂ := hw₁.tables w₁.2.handlers (w₁.2.localRows.push row) w₁.2.localTypeRows w₁.2.lineRows
  rw [hm₁] at htakes hcalm₂
  rw [hm₁] at hw₂
  refine ⟨((hcalm.moves he.wf he.base he.last).takes.append htakes).append
    (hcalm₂.moves hw₂.wf hw₂.base hw₂.last).takes, [], ?_, .localVariable ..⟩
  rw [append_nil]
  exact hw₂.calm hcalm₂

theorem takes_localVariable {signature : Text} {stop : LabelId} (he : Emitted own items u)
    (hfail : v.1.1.failure = none)
    (e : Ends (localVariable name desc signature start stop slot) u () v) :
    TakesOne own items (.localVariable name desc signature start stop slot) u v := by
  obtain ⟨hstart, e⟩ := ends_resolved hfail e
  obtain ⟨hstop, e⟩ := ends_resolved hfail e
  obtain ⟨b, w, h, e⟩ := e.bind
  obtain ⟨hb, rfl⟩ := ends_label_position h
  obtain ⟨b', w, h, e⟩ := e.bind
  obtain ⟨hb', rfl⟩ := ends_label_position h
  rw [← hb] at hstart
  rw [← hb'] at hstop
  split at e
  next hempty =>
    exact takes_variableRow he (Steps.refl _) rfl rfl hstart hstop
      (.inl ⟨isEmpty_iff.1 hempty, rfl⟩) hfail e
  next hempty =>
    obtain ⟨row, w, h, e⟩ := e.bind
    replace e := ends_modify_bind.1 e
    obtain ⟨h', hs, hm⟩ := ends_pool h
    refine takes_variableRow he h'.keeps hs hm hstart hstop
      (.inr ⟨fun h => hempty (isEmpty_iff.2 h), row, rfl, fun hw => ?_⟩) hfail e
    exact ends_localRow he.wf hstart hstop hw h

theorem takes_take {e : CodeEvent LabelId} (he : Emitted own items u) (hreg : e.Regular)
    (hown : ∀ l ∈ e.targets, own l) (hmaxs : ∀ stack locals, e ≠ .maxs stack locals)
    (hfail : v.1.1.failure = none) (h : Ends (take e) u () v) : TakesOne own items e u v := by
  cases e with
  | instruction i =>
    have hw := writes_write he hreg hown hfail (ends_inCode hfail h)
    obtain ⟨new, hv, hforms⟩ := hw.emitted
    exact ⟨hw.moves.takes.of_nil rfl rfl rfl, new, hv, .instruction hforms⟩
  | label l => exact takes_label he (hown l mem_cons_self) hfail (ends_inCode hfail h)
  | frame f => exact takes_frame he (ends_inCode hfail h)
  | tryCatch start stop handler caught => exact takes_tryCatch he hfail (ends_inCode hfail h)
  | localVariable name desc signature start stop slot =>
    exact takes_localVariable he hfail (ends_inCode hfail h)
  | line number start => exact takes_line he hfail (ends_inCode hfail h)
  | maxs stack locals => exact absurd rfl (hmaxs stack locals)

theorem ends_isLive_failed (hu : u.1.1.failure ≠ none) (e : Ends (isLive op) u b v) :
    b = false ∧ u = v := by
  obtain ⟨failed, w, h, e⟩ := e.bind
  obtain ⟨h, hs, hm⟩ := ends_pool h
  obtain ⟨rfl, hp⟩ := PoolM.ends_hasFailed.1 h
  obtain rfl : u = w := Prod.ext (Prod.ext hp hs.symm) hm.symm
  rw [if_pos (Option.isSome_iff_ne_none.2 hu)] at e
  obtain ⟨rfl, rfl⟩ := e.pure
  exact ⟨rfl, rfl⟩

theorem ends_inCode_failed (hu : u.1.1.failure ≠ none)
    (e : Ends (do if ← isInCode op then x) u () v) : u = v := by
  obtain ⟨b, w, h, e⟩ := e.bind
  obtain ⟨live, w', h', h⟩ := h.bind
  obtain ⟨rfl, rfl⟩ := ends_isLive_failed hu h'
  obtain ⟨rfl, rfl⟩ := h.pure
  obtain ⟨-, rfl⟩ := e.pure
  rfl

theorem ends_take_failed {e : CodeEvent LabelId} (hu : u.1.1.failure ≠ none)
    (h : Ends (take e) u () v) : u = v := by
  cases e with
  | maxs stack locals =>
    obtain ⟨b, w, h', h⟩ := h.bind
    obtain ⟨rfl, rfl⟩ := ends_isLive_failed hu h'
    obtain ⟨-, rfl⟩ := h.pure
    rfl
  | _ => exact ends_inCode_failed hu h

theorem ends_takeAll_failed {es : List (CodeEvent LabelId)} (hu : u.1.1.failure ≠ none)
    (h : Ends (takeAll es) u () v) : u = v := by
  induction es generalizing u with
  | nil => exact h.pure.2
  | cons e es ih =>
    obtain ⟨_, w, h', h⟩ := h.bind
    obtain rfl := ends_take_failed hu h'
    exact ih hu h

theorem takes_takeAll {es : List (CodeEvent LabelId)} (he : Emitted own items u)
    (hreg : ∀ e ∈ es, e.Regular) (hown : ∀ e ∈ es, ∀ l ∈ e.targets, own l)
    (hmaxs : ∀ e ∈ es, ∀ stack locals, e ≠ .maxs stack locals) (hfail : v.1.1.failure = none)
    (h : Ends (takeAll es) u () v) :
    Takes own es u v ∧ ∃ new, Emitted own (items ++ new) v ∧
      CodeEvent.Traced v.1.1 v.1.2.positions (stop 0 items) es new := by
  induction es generalizing u items with
  | nil =>
    obtain ⟨-, rfl⟩ := h.pure
    exact ⟨.nil u, [], by rwa [append_nil], .nil _⟩
  | cons e es ih =>
    obtain ⟨_, w, h', h⟩ := h.bind
    have hw : w.1.1.failure = none := by
      by_contra hw
      rw [ends_takeAll_failed hw h] at hw
      exact hw hfail
    obtain ⟨htakes, new, hnew, hlays⟩ := takes_take he (hreg e mem_cons_self)
      (hown e mem_cons_self) (hmaxs e mem_cons_self) hw h'
    obtain ⟨htakes', new', hnew', htraced⟩ := ih hnew
      (fun e' he' => hreg e' (mem_cons_of_mem e he'))
      (fun e' he' => hown e' (mem_cons_of_mem e he'))
      (fun e' he' => hmaxs e' (mem_cons_of_mem e he')) h
    rw [stop_append] at htraced
    refine ⟨htakes.append htakes', new ++ new', by rwa [← append_assoc], ?_⟩
    exact .cons (hlays.mono htakes'.extends_ htakes'.stays) htraced

end MethodM

end ClassAssembler
