import ClassAssembler.Proofs.Taking

/-!
# The end of the code

At the end of the code all labels that jumps and exception ranges refer to have positions
(`Method.Closed`).  If frames are computed, the blocks that are not reached are replaced by
operations that do nothing and a throw.  The labels of the method still stand between instructions
then.
-/

namespace ClassAssembler

open List CodeEvent

set_option synthInstance.maxSize 400

open Machine Item

namespace Item

variable {i : Item} {items : List Item} {n o x : Nat} {p : Pool}

/-! ## Offsets between items -/

theorem start_mem_placed (o : Nat) (items : List Item) :
    o ∈ (placed o items).map Prod.fst ++ [stop o items] := by
  cases items <;> simp [placed, stop]

theorem exists_split (h : x ∈ (placed o items).map Prod.fst ++ [stop o items]) :
    ∃ before behind, items = before ++ behind ∧ stop o before = x := by
  induction items generalizing o with
  | nil =>
    obtain rfl : x = o := by simpa [placed, stop] using h
    exact ⟨[], [], rfl, rfl⟩
  | cons i is ih =>
    rw [placed, map_cons, cons_append] at h
    rcases mem_cons.1 h with rfl | h
    · exact ⟨[], i :: is, rfl, rfl⟩
    · obtain ⟨before, behind, rfl, hx⟩ := ih h
      exact ⟨i :: before, behind, rfl, hx⟩

theorem exists_split₂ {y : Nat} (hsound : ∀ i ∈ items, i.Sound p) (hx : x ∈ bounds items)
    (hy : y ∈ bounds items) (hxy : x ≤ y) :
    ∃ before middle behind, items = before ++ middle ++ behind ∧ stop 0 before = x ∧
      stop x middle = y := by
  obtain ⟨before, rest, rfl, rfl⟩ := exists_split hx
  have hy' : y ∈ (placed (stop 0 before) rest).map Prod.fst ++ [stop (stop 0 before) rest] := by
    rw [bounds, placed_append, map_append, stop_append, append_assoc] at hy
    rcases mem_append.1 hy with hy | hy
    · obtain ⟨z, hz, rfl⟩ := mem_map.1 hy
      have hle := (fst_le_stop hz).2
      have hpos := size_pos (hsound z.2 (mem_append_left _ (mem_of_mem_placed hz))) z.1
      omega
    · exact hy
  obtain ⟨middle, behind, rfl, hmiddle⟩ := exists_split hy'
  exact ⟨before, middle, behind, by rw [append_assoc], rfl, hmiddle⟩

def dead (n : Nat) : List Item :=
  List.replicate n (.fixed (.plain 0) [Buffer.low8 0]) ++ [.fixed (.plain 191) [Buffer.low8 191]]

def deadBytes (n : Nat) : List UInt8 := List.replicate n (Buffer.low8 0) ++ [Buffer.low8 191]

theorem mem_dead (h : i ∈ dead n) :
    i = .fixed (.plain 0) [Buffer.low8 0] ∨ i = .fixed (.plain 191) [Buffer.low8 191] := by
  rcases mem_append.1 h with h | h
  · exact .inl (eq_of_mem_replicate h)
  · exact .inr (mem_singleton.1 h)

theorem stop_dead (o n : Nat) : stop o (dead n) = o + n + 1 := by
  induction n generalizing o with
  | zero => rfl
  | succ n ih =>
    have h := ih (o + 1)
    rw [show o + (n + 1) + 1 = o + 1 + n + 1 by omega, ← h]
    rfl

theorem encodeAll_dead (r : Positions) (o n : Nat) :
    Piece.encodeAll r o (layout o (dead n)) = deadBytes n := by
  induction n generalizing o with
  | zero => rfl
  | succ n ih => exact congrArg (Buffer.low8 0 :: ·) (ih (o + 1))

theorem sound_dead (h : i ∈ dead n) : i.Sound p := by
  rcases mem_dead h with rfl | rfl
  · exact ⟨⟨0, rfl, by decide⟩, rfl⟩
  · exact ⟨⟨191, rfl, by decide⟩, rfl⟩

theorem labels_dead (h : i ∈ dead n) : i.labels = [] := by
  rcases mem_dead h with rfl | rfl <;> rfl

theorem mem_placed_dead (hle : o ≤ x) (hlt : x < o + n + 1) :
    x ∈ (placed o (dead n)).map Prod.fst := by
  induction n generalizing o with
  | zero =>
    obtain rfl : x = o := by omega
    exact mem_cons_self
  | succ n ih =>
    rcases Nat.eq_or_lt_of_le hle with rfl | hlt'
    · exact mem_cons_self
    · exact mem_cons_of_mem _ (ih (o := o + 1) hlt' (by omega))

theorem mem_bounds_dead {before middle behind : List Item} (hsound : ∀ i ∈ middle, i.Sound p)
    (hn : stop (stop 0 before) middle = stop 0 before + n + 1)
    (hx : x ∈ bounds (before ++ middle ++ behind)) : x ∈ bounds (before ++ dead n ++ behind) := by
  have hstop : stop (stop 0 before) (dead n) = stop (stop 0 before) middle := by
    rw [hn, stop_dead]
  simp only [bounds, placed_append, stop_append, map_append, mem_append, or_assoc,
    hstop] at hx ⊢
  rcases hx with hx | hx | hx
  · exact .inl hx
  · obtain ⟨y, hy, rfl⟩ := mem_map.1 hx
    have hpos := size_pos (hsound y.2 (mem_of_mem_placed hy)) y.1
    obtain ⟨hle, hlt⟩ := fst_le_stop hy
    exact .inr (.inl (mem_placed_dead hle (by omega)))
  · exact .inr (.inr hx)

theorem mem_placed_replace {before middle new behind : List Item} {x : Nat × Item}
    (hstop : stop (stop 0 before) new = stop (stop 0 before) middle)
    (hx : x ∈ placed 0 (before ++ new ++ behind)) :
    x ∈ placed 0 (before ++ middle ++ behind) ∨ x.2 ∈ new := by
  simp only [placed_append, stop_append, mem_append, hstop] at hx ⊢
  rcases hx with (hx | hx) | hx
  · exact .inl (.inl (.inl hx))
  · exact .inr (mem_of_mem_placed hx)
  · exact .inl (.inr hx)

/-! ## Labels of items -/

theorem exists_mem_pieces {q : Piece} (hq : q ∈ layout o items) :
    ∃ x ∈ placed o items, q ∈ x.2.pieces x.1 := by
  induction items generalizing o with
  | nil => exact absurd hq not_mem_nil
  | cons i is ih =>
    rcases mem_append.1 hq with hq | hq
    · exact ⟨(o, i), mem_cons_self, hq⟩
    · obtain ⟨x, hx, hq⟩ := ih hq
      exact ⟨x, mem_cons_of_mem _ hx, hq⟩

theorem mem_labels {q : Piece} (hq : q ∈ i.pieces o) {l : LabelId} (hl : q.label? = some l) :
    l ∈ i.labels := by
  cases i with
  | fixed i bs =>
    obtain rfl := mem_singleton.1 hq
    cases hl
  | short op k =>
    obtain rfl := mem_singleton.1 hq
    exact mem_singleton.2 (Option.some.inj hl).symm
  | wide op k =>
    rcases mem_pair.1 hq with rfl | rfl
    · cases hl
    · exact mem_singleton.2 (Option.some.inj hl).symm
  | skip op =>
    obtain rfl := mem_singleton.1 hq
    cases hl
  | table low high fallback targets =>
    simp only [pieces, cons_append, nil_append, mem_cons, mem_map] at hq
    rcases hq with rfl | rfl | rfl | ⟨k, hk, rfl⟩
    · cases hl
    · exact mem_cons.2 (.inl (Option.some.inj hl).symm)
    · cases hl
    · exact mem_cons_of_mem _ (Option.some.inj hl ▸ hk)
  | lookup fallback keys targets =>
    simp only [pieces, cons_append, nil_append, mem_cons, mem_flatMap,
      not_mem_nil, or_false] at hq
    rcases hq with rfl | rfl | rfl | ⟨row, hrow, rfl | rfl⟩
    · cases hl
    · exact mem_cons.2 (.inl (Option.some.inj hl).symm)
    · cases hl
    · cases hl
    · exact mem_cons_of_mem _ (Option.some.inj hl ▸ (of_mem_zip hrow).2)

theorem encodeAll_layout_congr {r r' : Positions} (h : ∀ i ∈ items, ∀ l ∈ i.labels, r' l = r l) :
    Piece.encodeAll r' o (layout o items) = Piece.encodeAll r o (layout o items) := by
  refine Piece.encodeAll_congr fun q hq l hl => ?_
  obtain ⟨x, hx, hq⟩ := exists_mem_pieces hq
  exact h x.2 (mem_of_mem_placed hx) l (mem_labels hq hl)

theorem anyPending_of_mem {r : Positions} {x : Nat × Item} (hx : x ∈ placed o items) {op : Nat}
    {l : LabelId} (hi : x.2 = .short op l) (hpend : x.2.isPending r x.1) :
    Piece.anyPending r o (layout o items) := by
  induction items generalizing o with
  | nil => exact absurd hx not_mem_nil
  | cons i is ih =>
    rw [layout, Piece.anyPending_append, Bool.or_eq_true]
    rcases mem_cons.1 hx with rfl | hx
    · refine .inl ?_
      dsimp only at hi hpend
      subst hi
      rw [pieces, Piece.anyPending, Bool.or_eq_true]
      exact .inl hpend
    · exact .inr (ih hx)

end Item

namespace Method

/-! ## Methods that are written -/

/-- The rows of a method's tables refer to labels of the method and to offsets between its
items. -/
structure Rows (own : LabelId → Prop) (items : List Item) (u : State) : Prop where
  handlers : ∀ h ∈ u.2.handlers, own h.start ∧ own h.stop ∧ own h.handler ∧
    ∃ caught, u.1.1.Catches h.caughtIndex caught
  lines : ∀ row ∈ u.2.lineRows, row.offset ∈ bounds items
  locals : ∀ row ∈ u.2.localRows, row.start ∈ bounds items ∧
    (∃ e ∈ bounds items, row.start + row.length = (e : Nat)) ∧
    (∃ name, u.1.1.Has row.name (.utf8 name)) ∧ ∃ desc, u.1.1.Has row.desc (.utf8 desc)
  types : ∀ row ∈ u.2.localTypeRows, ∃ signature, signature ≠ [] ∧
    u.1.1.Has row.desc (.utf8 signature)

def Skips (items : List Item) : Prop :=
  ∀ x ∈ placed 0 items, ∀ op, x.2 = .skip op → x.1 + 8 ∈ bounds items

/-- The code of a method is complete: it consists of items whose labels all have positions. -/
structure Done (own : LabelId → Prop) (items : List Item) (u : State) : Prop
    extends Rows own items u where
  code : u.2.code.toList = Piece.encodeAll u.1.2.positions 0 (layout 0 items)
  sound : ∀ i ∈ items, i.Sound u.1.1
  bounded : ∀ l, own l → (u.1.2.spot l).position ∈ bounds items
  targets : ∀ i ∈ items, ∀ l ∈ i.labels, own l ∧ ∃ o, u.1.2.positions l = some o
  ahead : ∀ x ∈ placed 0 items, x.2.Ahead u.1.2.positions x.1
  pending : ∀ x ∈ placed 0 items, x.2.isPending u.1.2.positions x.1 → u.2.hasPending
  skips : Skips items

section

variable {own own' : LabelId → Prop} {items : List Item} {u v : State}

theorem Done.frame (h : Done own items u) (hp : u.1.1.Extends v.1.1)
    (hspot : ∀ l, own l → own' l ∧ v.1.2.spot l = u.1.2.spot l)
    (hnew : ∀ l, own' l → own l ∨ (v.1.2.spot l).position ∈ bounds items)
    (hm : v.2.core = u.2.core) : Done own' items v := by
  have hpos : ∀ l, own l → v.1.2.positions l = u.1.2.positions l := by
    intro l hl
    simp only [Session.positions, (hspot l hl).2]
  have hlabels : ∀ i ∈ items, ∀ l ∈ i.labels, v.1.2.positions l = u.1.2.positions l :=
    fun i hi l hl => hpos l (h.targets i hi l hl).1
  have hhandlers : v.2.handlers = u.2.handlers :=
    (congrArg Method.handlers hm : v.2.core.handlers = u.2.core.handlers)
  have hlines : v.2.lineRows = u.2.lineRows :=
    (congrArg Method.lineRows hm : v.2.core.lineRows = u.2.core.lineRows)
  have hlocals : v.2.localRows = u.2.localRows :=
    (congrArg Method.localRows hm : v.2.core.localRows = u.2.core.localRows)
  have htypes : v.2.localTypeRows = u.2.localTypeRows :=
    (congrArg Method.localTypeRows hm : v.2.core.localTypeRows = u.2.core.localTypeRows)
  have hpend : v.2.hasPending = u.2.hasPending :=
    (congrArg Method.hasPending hm : v.2.core.hasPending = u.2.core.hasPending)
  refine ⟨⟨?_, ?_, ?_, ?_⟩, ?_, fun i hi => (h.sound i hi).mono hp, fun l hl => ?_,
    fun i hi l hl => ?_, fun x hx => ?_, fun x hx hx' => ?_, h.skips⟩
  · intro row hrow
    obtain ⟨hs, he, hh, caught, hc⟩ := h.handlers row (hhandlers ▸ hrow)
    exact ⟨(hspot _ hs).1, (hspot _ he).1, (hspot _ hh).1, caught, hc.mono hp⟩
  · rw [hlines]
    exact h.lines
  · rw [hlocals]
    intro row hrow
    obtain ⟨hs, he, ⟨name, hname⟩, desc, hdesc⟩ := h.locals row hrow
    exact ⟨hs, he, ⟨name, hname.mono hp⟩, desc, hdesc.mono hp⟩
  · rw [htypes]
    intro row hrow
    obtain ⟨signature, hne, hhas⟩ := h.types row hrow
    exact ⟨signature, hne, hhas.mono hp⟩
  · rw [code_of_core hm, h.code, encodeAll_layout_congr hlabels]
  · rcases hnew l hl with hl | hl
    · rw [(hspot l hl).2]
      exact h.bounded l hl
    · exact hl
  · obtain ⟨hown, o, ho⟩ := h.targets i hi l hl
    exact ⟨(hspot l hown).1, o, (hpos l hown).trans ho⟩
  · exact (h.ahead x hx).congr (hlabels x.2 (mem_of_mem_placed hx))
  · rw [isPending_congr (hlabels x.2 (mem_of_mem_placed hx))] at hx'
    rw [hpend]
    exact h.pending x hx hx'

/-- The code of a method is complete, and its blocks may still be analysed. -/
structure Closed (own : LabelId → Prop) (items : List Item) (u : State) : Prop
    extends Done (fun l => own l ∧ l < u.1.2.labels.size) items u where
  wf : u.1.1.Wf
  base : ∀ n, u.1.2.labels.size ≤ n → own n
  linked : ∀ l n, own l → u.1.2.next l = some n → own n
  entry : ∀ l, u.2.entry = some l → own l
  last : u.2.LastIn own

theorem Done.codeSize (h : Done own items u) : u.2.code.size = stop 0 items := by
  rw [← sizeAll_layout 0 items, Nat.zero_add, ← Piece.length_encodeAll u.1.2.positions 0, ← h.code]
  exact Array.length_toList.symm

theorem Closed.calm (hc : Closed own items u) (h : Calm own u v) : Closed own items v := by
  have hgrows := h.grows hc.wf
  refine ⟨hc.toDone.frame hgrows.2 (fun l hl => ⟨⟨hl.1, Nat.lt_of_lt_of_le hl.2 h.size⟩,
    h.spot_eq hl.2⟩) (fun l hl => ?_) h.core, hgrows.1,
    fun n hn => hc.base n (Nat.le_trans h.size hn), fun l n hl hn => ?_, fun l hl => ?_,
    (h.next hc.base hc.last).1⟩
  · by_cases hlt : l < u.1.2.labels.size
    · exact .inl ⟨hl.1, hlt⟩
    · refine .inr ?_
      rcases h.spot l with h | ⟨-, h⟩
      · rw [h, Session.spot_of_size_le (Nat.not_lt.1 hlt)]
        exact zero_mem_bounds items
      · rw [h, hc.codeSize]
        exact stop_mem_bounds items
  · rcases (h.next hc.base hc.last).2 l n hn with hn | hn
    · exact hc.linked l n hl hn
    · exact hn.2
  · exact hc.entry l ((congrArg Method.entry h.core : v.2.core.entry = u.2.core.entry) ▸ hl)

/-! ## Dead code -/

theorem mem_subtract {position : LabelId → Nat} {start : LabelId} {stop : Option LabelId}
    {rows : Array Handler} {h : Handler} (hh : h ∈ Handler.subtract position start stop rows) :
    ∃ row ∈ rows, h.handler = row.handler ∧
      (h.caughtIndex = row.caughtIndex ∧ h.caught = row.caught) ∧
      (h.start = row.start ∨ stop = some h.start) ∧ (h.stop = row.stop ∨ h.stop = start) := by
  simp only [Handler.subtract, Array.mem_flatMap, mem_toArray] at hh
  obtain ⟨row, hrow, hh⟩ := hh
  refine ⟨row, hrow, ?_⟩
  cases stop with
  | none =>
    dsimp only [Handler.subtractFrom] at hh
    split at hh
    · obtain rfl := mem_singleton.1 hh
      exact ⟨rfl, ⟨rfl, rfl⟩, .inl rfl, .inl rfl⟩
    · split at hh
      · cases hh
      · obtain rfl := mem_singleton.1 hh
        exact ⟨rfl, ⟨rfl, rfl⟩, .inl rfl, .inr rfl⟩
  | some l =>
    dsimp only [Handler.subtractFrom] at hh
    split at hh
    · obtain rfl := mem_singleton.1 hh
      exact ⟨rfl, ⟨rfl, rfl⟩, .inl rfl, .inl rfl⟩
    · split at hh
      · cases hh
      · split at hh
        · obtain rfl := mem_singleton.1 hh
          exact ⟨rfl, ⟨rfl, rfl⟩, .inr rfl, .inl rfl⟩
        · split at hh
          · obtain rfl := mem_singleton.1 hh
            exact ⟨rfl, ⟨rfl, rfl⟩, .inl rfl, .inr rfl⟩
          · rcases mem_pair.1 hh with rfl | rfl
            · exact ⟨rfl, ⟨rfl, rfl⟩, .inl rfl, .inr rfl⟩
            · exact ⟨rfl, ⟨rfl, rfl⟩, .inr rfl, .inl rfl⟩

theorem Closed.subtract (hc : Closed own items u) {position : LabelId → Nat} {start : LabelId}
    {stop : Option LabelId} (hstart : own start ∧ start < u.1.2.labels.size)
    (hstop : ∀ l, stop = some l → own l ∧ l < u.1.2.labels.size) :
    Closed own items
      (u.1, { u.2 with handlers := Handler.subtract position start stop u.2.handlers }) := by
  refine ⟨⟨⟨fun h hh => ?_, hc.lines, hc.locals, hc.types⟩, hc.code, hc.sound, hc.bounded,
    hc.targets, hc.ahead, hc.pending, hc.skips⟩, hc.wf, hc.base, hc.linked, hc.entry, hc.last⟩
  obtain ⟨row, hrow, hhandler, hindex, hs, he⟩ := mem_subtract hh
  obtain ⟨hs', he', hh', hcaught⟩ := hc.handlers row hrow
  refine ⟨?_, ?_, hhandler ▸ hh', hindex.1 ▸ hcaught⟩
  · rcases hs with hs | hs
    · rw [hs]
      exact hs'
    · exact hstop _ hs
  · rcases he with he | he
    · rw [he]
      exact he'
    · rw [he]
      exact hstart

end

end Method

theorem Buffer.putDead_append {b : Buffer} {before old behind : List UInt8} {start n : Nat}
    (hb : b.toList = before ++ (old ++ behind)) (hstart : before.length = start)
    (hold : old.length = n + 1) :
    ∃ b', b.putDead start n = .ok b' ∧ b'.toList = before ++ (deadBytes n ++ behind) := by
  induction n generalizing b before old start with
  | zero =>
    obtain ⟨x, rfl⟩ := length_eq_one_iff.1 hold
    exact Buffer.patch_append _ hb hstart
  | succ n ih =>
    cases old with
    | nil => cases hold
    | cons x old =>
      obtain ⟨c, hc, hcl⟩ := Buffer.patch_append (UInt8.ofNat Opcode.nop.code) hb hstart
      have hc' : c.toList = (before ++ [UInt8.ofNat Opcode.nop.code]) ++ (old ++ behind) := by
        simp [hcl]
      obtain ⟨d, hd, hdl⟩ := @ih _ _ _ (start + 1) hc' (by simp [hstart]) (by simpa using hold)
      refine ⟨d, ?_, ?_⟩
      · rw [Buffer.putDead, hc]
        exact hd
      · rw [hdl, append_assoc]
        rfl

namespace Method

variable {own : LabelId → Prop} {items : List Item} {u v : State}

/-- What the end of the code does apart from the code: labels keep their places, and the method all
but its exception table and what the analysis of its blocks finds out. -/
structure Seals (own : LabelId → Prop) (u v : State) : Prop where
  extends_ : u.1.1.Extends v.1.1
  size : u.1.2.labels.size ≤ v.1.2.labels.size
  stays : ∀ l o, u.1.2.positions l = some o → v.1.2.positions l = some o
  others : ∀ l, ¬ own l → v.1.2.spot l = u.1.2.spot l
  apart : ∀ l n, ¬ own l → v.1.2.next l = some n → u.1.2.next l = some n
  outline : { v.2.outline with handlers := #[], hasMaxs := true } =
    { u.2.outline with handlers := #[], hasMaxs := true }

instance (own : LabelId → Prop) : Steps (Seals own) where
  refl u := ⟨.refl u.1.1, Nat.le_refl _, fun _ _ h => h, fun _ _ => rfl, fun _ _ _ h => h, rfl⟩
  trans h h' :=
    ⟨h.extends_.trans h'.extends_, Nat.le_trans h.size h'.size,
      fun l o ho => h'.stays l o (h.stays l o ho),
      fun l hl => (h'.others l hl).trans (h.others l hl),
      fun l n hl hn => h.apart l n hl (h'.apart l n hl hn), h'.outline.trans h.outline⟩

theorem Moves.seals (h : Moves own u v) : Seals own u v :=
  ⟨h.extends_, h.size, h.stays, h.others, h.apart, by rw [h.outline]⟩

theorem seals_method {m : Method} (h : { m.outline with handlers := #[], hasMaxs := true } =
    { u.2.outline with handlers := #[], hasMaxs := true }) : Seals own u (u.1, m) :=
  ⟨.refl _, Nat.le_refl _, fun _ _ h => h, fun _ _ => rfl, fun _ _ _ h => h, h⟩

theorem Closed.kill (hc : Closed own items u) {start behind : Nat} (hlt : start < behind)
    (hstart : start ∈ bounds items) (hbehind : behind ∈ bounds items) {b : Buffer}
    (hb : u.2.code.putDead start (behind - 1 - start) = .ok b) :
    ∃ items', Closed own items' (u.1, { u.2 with code := b }) := by
  obtain ⟨before, middle, rest, rfl, rfl, rfl⟩ :=
    exists_split₂ hc.sound hstart hbehind (Nat.le_of_lt hlt)
  have hn : stop (stop 0 before) middle =
      stop 0 before + (stop (stop 0 before) middle - 1 - stop 0 before) + 1 := by
    omega
  generalize stop (stop 0 before) middle - 1 - stop 0 before = n at hb hn
  have hsize (o : Nat) (is : List Item) :
      (Piece.encodeAll u.1.2.positions o (layout o is)).length = stop o is - o := by
    rw [Piece.length_encodeAll, ← sizeAll_layout o is]
    omega
  have hlayout (more : List Item) : Piece.encodeAll u.1.2.positions 0
      (layout 0 (before ++ more ++ rest)) = Piece.encodeAll u.1.2.positions 0 (layout 0 before) ++
        (Piece.encodeAll u.1.2.positions (stop 0 before) (layout (stop 0 before) more) ++
          Piece.encodeAll u.1.2.positions (stop (stop 0 before) more)
            (layout (stop (stop 0 before) more) rest)) := by
    have hmore : 0 + Piece.sizeAll (layout 0 before) = stop 0 before := sizeAll_layout 0 before
    rw [layout_append, layout_append, Piece.encodeAll_append, Piece.encodeAll_append,
      Piece.sizeAll_append, ← Nat.add_assoc, hmore, sizeAll_layout, stop_append, append_assoc]
  have hdead : stop (stop 0 before) (dead n) = stop (stop 0 before) middle := by
    rw [hn, stop_dead]
  obtain ⟨b', hb', hbytes⟩ := @Buffer.putDead_append _ _ _ _ (stop 0 before) n
    (hc.code.trans (hlayout middle)) (by rw [hsize]; omega) (by rw [hsize]; omega)
  obtain rfl : b = b' := Except.ok.inj (hb.symm.trans hb')
  have hbounds : ∀ x ∈ bounds (before ++ middle ++ rest), x ∈ bounds (before ++ dead n ++ rest) :=
    fun x hx => mem_bounds_dead
      (fun i hi => hc.sound i (mem_append_left _ (mem_append_right _ hi))) hn hx
  have hold : ∀ x ∈ placed 0 (before ++ dead n ++ rest),
      x ∈ placed 0 (before ++ middle ++ rest) ∨ x.2 ∈ dead n :=
    fun x hx => mem_placed_replace hdead hx
  have hold' : ∀ i ∈ before ++ dead n ++ rest, i ∈ before ++ middle ++ rest ∨ i ∈ dead n := by
    intro i hi
    obtain ⟨x, hx, rfl⟩ := exists_mem_placed hi 0
    exact (hold x hx).imp_left mem_of_mem_placed
  refine ⟨before ++ dead n ++ rest, ⟨⟨hc.handlers, fun row hrow => hbounds _ (hc.lines row hrow),
    fun row hrow => ?_, hc.types⟩, ?_, fun i hi => ?_, fun l hl => hbounds _ (hc.bounded l hl),
      fun i hi l hl => ?_,
    fun x hx => ?_, fun x hx hpend => ?_, fun x hx op hop => ?_⟩, hc.wf, hc.base, hc.linked,
      hc.entry, hc.last⟩
  · obtain ⟨hs, ⟨e, he, hlen⟩, hnames⟩ := hc.locals row hrow
    exact ⟨hbounds _ hs, ⟨e, hbounds _ he, hlen⟩, hnames⟩
  · rw [hlayout, encodeAll_dead, hdead]
    exact hbytes
  · rcases hold' i hi with hi | hi
    · exact hc.sound i hi
    · exact sound_dead hi
  · rcases hold' i hi with hi | hi
    · exact hc.targets i hi l hl
    · rw [labels_dead hi] at hl
      cases hl
  · rcases hold x hx with hx | hx
    · exact hc.ahead x hx
    · rcases mem_dead hx with h | h <;> rw [h] <;> trivial
  · rcases hold x hx with hx | hx
    · exact hc.pending x hx hpend
    · rcases mem_dead hx with h | h <;> rw [h] at hpend <;> cases hpend
  · rcases hold x hx with hx | hx
    · exact hbounds _ (hc.skips x hx op hop)
    · rcases mem_dead hx with h | h <;> rw [h] at hop <;> cases hop

end Method

namespace MethodM

open Method

variable {own : LabelId → Prop} {items : List Item} {u v : State}

theorem ends_chainFrom {s t : Pool × Session} (hlinked : ∀ l n, own l → s.2.next l = some n → own n)
    {stop : Option LabelId} {n : Nat} {l : Option LabelId} {acc blocks : Array LabelId}
    (hl : ∀ k, l = some k → own k) (hacc : ∀ k ∈ acc, own k)
    (e : Ends (SessionM.chainFrom stop n l acc) s blocks t) : s = t ∧ ∀ k ∈ blocks, own k := by
  induction n generalizing l acc with
  | zero =>
    obtain ⟨rfl, rfl⟩ := e.pure
    exact ⟨rfl, hacc⟩
  | succ n ih =>
    cases l with
    | none =>
      obtain ⟨rfl, rfl⟩ := e.pure
      exact ⟨rfl, hacc⟩
    | some l =>
      unfold SessionM.chainFrom at e
      split at e
      · obtain ⟨rfl, rfl⟩ := e.pure
        exact ⟨rfl, hacc⟩
      · obtain ⟨b, w, h, e⟩ := e.bind
        obtain ⟨hb, rfl⟩ := SessionM.ends_label h
        have hown : own l := hl l rfl
        refine ih (fun k hk => hlinked l k hown ?_) (fun k hk => ?_) e
        · simp [Session.next, hb, hk]
        · rcases Array.mem_push.1 hk with hk | rfl
          · exact hacc k hk
          · exact hown

theorem ends_blockEnd {k : Label} {behind : Nat} (hc : Closed own items u)
    (hnext : ∀ l, k.next = some l → own l) (e : Ends (blockEnd k) u behind v) :
    behind ∈ bounds items ∧ (∀ l, k.next = some l → own l ∧ l < u.1.2.labels.size) ∧ u = v := by
  unfold blockEnd at e
  split at e
  next l hl =>
    obtain ⟨b, ⟨w, m⟩, h, e⟩ := e.bind
    obtain ⟨rfl, rfl⟩ := e.pure
    obtain ⟨h, rfl⟩ := h.lift
    obtain ⟨hb, rfl⟩ := SessionM.ends_label h
    have hown : own l ∧ l < u.1.2.labels.size := ⟨hnext l hl, (Array.getElem?_eq_some_iff.1 hb).1⟩
    refine ⟨?_, fun n hn => ?_, rfl⟩
    · have hbound := hc.bounded l hown
      rwa [Session.spot_of_label hb] at hbound
    · obtain rfl := Option.some.inj (hl.symm.trans hn)
      exact hown
  next hnone =>
    obtain ⟨rfl, rfl⟩ := ends_codeSize.1 e
    refine ⟨?_, fun n hn => ?_, rfl⟩
    · rw [hc.codeSize]
      exact stop_mem_bounds items
    · cases hnone.symm.trans hn

theorem ends_overwriteDead {start behind : Nat} (e : Ends (overwriteDead start behind) u () v) :
    ∃ b, u.2.code.putDead start (behind - 1 - start) = .ok b ∧
    v = (u.1, { u.2 with code := b }) := by
  obtain ⟨b, w, h, e⟩ := e.bind
  obtain ⟨rfl, rfl⟩ := ends_modifyGet.1 h
  obtain ⟨c, w, h, e⟩ := e.bind
  obtain ⟨hc, rfl⟩ := ends_checked.1 h
  obtain rfl := e.modify
  exact ⟨c, hc, rfl⟩

theorem closes_replaceDead {block : LabelId} {b : Bool} (hc : Closed own items u)
    (hblock : own block) (e : Ends (replaceDead block) u b v) :
    Seals own u v ∧ ∃ items', Closed own items' v := by
  obtain ⟨k, ⟨w, m⟩, h, e⟩ := e.bind
  obtain ⟨h, rfl⟩ := h.lift
  obtain ⟨hk, rfl⟩ := SessionM.ends_label h
  have hblock' : own block ∧ block < u.1.2.labels.size :=
    ⟨hblock, (Array.getElem?_eq_some_iff.1 hk).1⟩
  have hstart : k.position ∈ bounds items := by
    have hbound := hc.bounded block hblock'
    rwa [Session.spot_of_label hk] at hbound
  obtain ⟨behind, w, h, e⟩ := e.bind
  obtain ⟨hbehind, hnext, rfl⟩ := ends_blockEnd hc
    (fun l hl => hc.linked block l hblock (by simp [Session.next, hk, hl])) h
  split at e
  next =>
    obtain ⟨-, rfl⟩ := e.pure
    exact ⟨Steps.refl u, items, hc⟩
  next hlt =>
    obtain ⟨_, w, h, e⟩ := e.bind
    obtain ⟨code, hcode, rfl⟩ := ends_overwriteDead h
    obtain ⟨items', hc'⟩ := hc.kill (Nat.lt_of_not_le hlt) hstart hbehind hcode
    obtain ⟨thrown, w, h₁, e⟩ := e.bind
    obtain ⟨_, w', h₂, e⟩ := e.bind
    obtain ⟨session, w'', h₃, e⟩ := e.bind
    obtain ⟨_, _, h₄, e⟩ := e.bind
    obtain ⟨-, rfl⟩ := e.pure
    obtain rfl := h₄.modify
    have hcalm : Calm own (u.1, { u.2 with code }) w'' :=
      Steps.trans h₁.keeps (Steps.trans h₂.keeps
        h₃.keeps)
    refine ⟨Steps.trans (seals_method (m := { u.2 with code }) rfl) (Steps.trans
      (hcalm.moves hc'.wf hc'.base hc'.last).seals (seals_method rfl)), items', ?_⟩
    exact (hc'.calm hcalm).subtract ⟨hblock, Nat.lt_of_lt_of_le hblock'.2 hcalm.size⟩
      fun l hl => ⟨(hnext l hl).1, Nat.lt_of_lt_of_le (hnext l hl).2 hcalm.size⟩

theorem closes_writeFrames {blocks : List LabelId} {largest largest' : Int}
    (hc : Closed own items u) (hblocks : ∀ l ∈ blocks, own l)
    (e : Ends (writeFrames blocks largest) u largest' v) :
    Seals own u v ∧ ∃ items', Closed own items' v := by
  induction blocks generalizing u items largest with
  | nil =>
    obtain ⟨-, rfl⟩ := e.pure
    exact ⟨Steps.refl u, items, hc⟩
  | cons block blocks ih =>
    have hrest : ∀ l ∈ blocks, own l := fun l hl => hblocks l (mem_cons_of_mem block hl)
    -- what is done when the frame of the block has been written, if it needs one
    have htail : ∀ (k : Label) (w : State), Calm own u w → Ends (if k.isReachable then
        writeFrames blocks largest
        else do
          let replaced ← replaceDead block
          writeFrames blocks (if replaced ∧ largest < 1 then 1 else largest)) w largest' v →
        Seals own u v ∧ ∃ items', Closed own items' v := by
      intro k w hcalm e
      have hseals := (hcalm.moves hc.wf hc.base hc.last).seals
      split at e
      · obtain ⟨hseals', hv⟩ := ih (hc.calm hcalm) hrest e
        exact ⟨Steps.trans hseals hseals', hv⟩
      · obtain ⟨replaced, w', h, e⟩ := e.bind
        obtain ⟨hseals₁, items', hc'⟩ :=
          closes_replaceDead (hc.calm hcalm) (hblocks block mem_cons_self) h
        obtain ⟨hseals₂, hv⟩ := ih hc' hrest e
        exact ⟨Steps.trans hseals (Steps.trans hseals₁ hseals₂), hv⟩
    obtain ⟨k, w, h, e⟩ := e.bind
    have hcalm : Calm own u w := h.keeps
    dsimp only at e
    split at e
    · obtain ⟨f, w₁, h₁, e⟩ := e.bind
      obtain ⟨fr, w₂, h₂, e⟩ := e.bind
      obtain ⟨_, w₃, h₃, e⟩ := e.bind
      exact htail k w₃ (Steps.trans hcalm (Steps.trans h₁.keeps
        (Steps.trans h₂.keeps h₃.keeps))) e
    · exact htail k w hcalm e

theorem closes_computeFrames (hc : Closed own items u) (e : Ends computeFrames u () v) :
    Seals own u v ∧ ∃ items', Closed own items' v := by
  obtain ⟨m, w, h, e⟩ := e.bind
  obtain ⟨rfl, rfl⟩ := ends_get.1 h
  split at e
  next => exact absurd e ends_throw
  next entry hentry =>
  have hown : own entry := hc.entry entry hentry
  obtain ⟨bound, w, h, e⟩ := e.bind
  obtain ⟨largest, w', h', e⟩ := e.bind
  have hcalm : Calm own u w' := Steps.trans h.keeps h'.keeps
  have hc' := hc.calm hcalm
  have hseals := (hcalm.moves hc.wf hc.base hc.last).seals
  split at e
  next largest =>
    obtain ⟨blocks, ⟨w, m⟩, h, e⟩ := e.bind
    obtain ⟨h, rfl⟩ := h.lift
    obtain ⟨s, _, hs, h⟩ := ends_bind.1 (ends_liftSelf.1 h)
    obtain ⟨rfl, rfl⟩ := ends_get.1 hs
    obtain ⟨rfl, hblocks⟩ := ends_chainFrom hc'.linked
      (fun k hk => Option.some.inj hk ▸ hown) (by simp) h
    obtain ⟨largest', w, h, e⟩ := e.bind
    obtain ⟨hseals', items', hv⟩ :=
      closes_writeFrames hc' (fun l hl => hblocks l (Array.mem_toList_iff.1 hl)) h
    have hlast : Calm own w v := e.keeps
    exact ⟨Steps.trans hseals (Steps.trans hseals' (hlast.moves hv.wf hv.base hv.last).seals),
      items', hv.calm hlast⟩
  next =>
    obtain ⟨-, rfl⟩ := e.pure
    exact ⟨hseals, items, hc'⟩

theorem ends_requireAllResolved {op : String} {ls : List LabelId} {b : Bool} {s t : Pool × Session}
    (e : Ends (requireAllResolved op ls) s b t) :
    b = true ∧ s = t ∧ (∀ l ∈ ls, s.2.positions l = some (s.2.spot l).position) ∨
      b = false ∧ t.1.failure ≠ none := by
  induction ls with
  | nil =>
    obtain ⟨rfl, rfl⟩ := e.pure
    exact .inl ⟨rfl, rfl, nofun⟩
  | cons l ls ih =>
    obtain ⟨b', w, h, e⟩ := e.bind
    rcases ends_requireResolved h with ⟨rfl, rfl, hl⟩ | ⟨rfl, hfail⟩
    · rcases ih e with ⟨rfl, rfl, hls⟩ | hfail
      · exact .inl ⟨rfl, rfl, forall_mem_cons.2 ⟨hl, hls⟩⟩
      · exact .inr hfail
    · obtain ⟨rfl, rfl⟩ := e.pure
      exact .inr ⟨rfl, hfail⟩

theorem ends_allResolved {op : String} {ls : List LabelId} {x : MethodM Unit}
    (hfail : v.1.1.failure = none)
    (e : Ends (do if ← requireAllResolved op ls then x : MethodM Unit) u () v) :
    (∀ l ∈ ls, u.1.2.positions l = some (u.1.2.spot l).position) ∧ Ends x u () v := by
  obtain ⟨b, ⟨w, m⟩, h, e⟩ := e.bind
  obtain ⟨h, rfl⟩ := h.lift
  rcases ends_requireAllResolved h with ⟨rfl, rfl, hpos⟩ | ⟨rfl, hfail'⟩
  · exact ⟨hpos, e⟩
  · obtain ⟨-, rfl⟩ := e.pure
    exact absurd hfail hfail'

end MethodM

namespace Method

variable {own : LabelId → Prop} {items : List Item} {u v : State}

theorem lt_size_of_position {s : Session} {l : LabelId} {o : Nat} (h : s.positions l = some o) :
    l < s.labels.size := by
  by_contra hl
  rw [Session.positions_eq_some, Session.spot_of_size_le (Nat.not_lt.1 hl)] at h
  cases h.1

theorem Emitted.closed (he : Emitted own items u) (hrows : Rows own items u)
    (hforward : ∀ l ∈ u.2.forward.toList, ∃ o, u.1.2.positions l = some o)
    (hhandlers : ∀ h ∈ u.2.handlers, ∀ l ∈ [h.start, h.stop, h.handler],
      ∃ o, u.1.2.positions l = some o) (hskips : Skips items) : Closed own items u := by
  refine ⟨⟨⟨fun h hh => ?_, hrows.lines, hrows.locals, hrows.types⟩, he.code, he.sound,
    fun l hl => he.bounded l hl.1, fun i hi l hl => ?_, he.ahead, fun x hx hpend => ?_, hskips⟩,
      he.wf, he.base, he.linked, he.entry, he.last⟩
  · obtain ⟨hs, ht, hh', hc⟩ := hrows.handlers h hh
    obtain ⟨a, ha⟩ := hhandlers h hh h.start (by simp)
    obtain ⟨b, hb⟩ := hhandlers h hh h.stop (by simp)
    obtain ⟨c, hc'⟩ := hhandlers h hh h.handler (by simp)
    exact ⟨⟨hs, lt_size_of_position ha⟩, ⟨ht, lt_size_of_position hb⟩,
      ⟨hh', lt_size_of_position hc'⟩, hc⟩
  · obtain ⟨hown, hlt, hnone⟩ := he.labels_of_item hi hl
    refine ⟨⟨hown, hlt⟩, ?_⟩
    cases hpos : u.1.2.positions l with
    | some o => exact ⟨o, rfl⟩
    | none =>
      obtain ⟨o, ho⟩ := hforward l (Array.mem_toList_iff.2 (hnone hpos))
      exact absurd (ho.symm.trans hpos) (by simp)
  · cases hi : x.2 with
    | short op l => exact he.pending (anyPending_of_mem hx hi hpend)
    | wide op l =>
      rw [hi] at hpend
      obtain rfl : op = 220 := by simpa [isPending] using hpend
      exact he.deferred l (hi ▸ mem_of_mem_placed hx)
    | _ => rw [hi] at hpend; cases hpend

theorem Closed.shut (hc : Closed own items u) :
    Closed own items (u.1, { u.2 with hasMaxs := true, forward := #[] }) :=
  ⟨⟨⟨hc.handlers, hc.lines, hc.locals, hc.types⟩, hc.code, hc.sound, hc.bounded, hc.targets,
    hc.ahead, hc.pending, hc.skips⟩, hc.wf, hc.base, hc.linked, hc.entry, hc.last⟩

end Method

namespace MethodM

open Method

variable {own : LabelId → Prop} {items : List Item} {u v : State}

theorem closes_maxs {stack locals : Int} (he : Emitted own items u) (hrows : Rows own items u)
    (hskips : Skips items) (hfail : v.1.1.failure = none) (e : Ends (maxs stack locals) u () v) :
    Seals own u v ∧ (∃ items', Closed own items' v) ∧
      (u.2.compute ≠ .frames → Closed own items v ∧ v.2.handlers = u.2.handlers ∧
        (v.2.hasPending → ∃ x ∈ placed 0 items, x.2.isPending v.1.2.positions x.1)) := by
  replace e := ends_whenLive hfail e
  replace e := ends_get_bind.1 e
  split at e
  · exact absurd hfail (failure_of_fail e)
  replace e := ends_get_bind.1 e
  split at e
  · exact absurd hfail (failure_of_fail e)
  replace e := ends_modify_bind.1 e
  replace e := ends_get_bind.1 e
  obtain ⟨hforward, e⟩ := ends_allResolved hfail e
  replace e := ends_modify_bind.1 e
  replace e := ends_get_bind.1 e
  obtain ⟨hhandlers, e⟩ := ends_allResolved hfail e
  have hc : Closed own items u := by
    refine he.closed hrows (fun l hl => ⟨_, hforward l hl⟩) (fun h hh l hl => ⟨_, hhandlers l ?_⟩)
      hskips
    exact mem_flatMap.2 ⟨h, Array.mem_toList_iff.2 hh, hl⟩
  have hseals : Seals own u (u.1, { u.2 with hasMaxs := true, forward := #[] }) := seals_method rfl
  replace e := ends_get_bind.1 e
  have hcalm : Calm own (u.1, { u.2 with hasMaxs := true, forward := #[] }) v →
      Seals own u v ∧ (∃ items', Closed own items' v) ∧
        (u.2.compute ≠ .frames → Closed own items v ∧ v.2.handlers = u.2.handlers ∧
          (v.2.hasPending → ∃ x ∈ placed 0 items, x.2.isPending v.1.2.positions x.1)) := by
    intro h
    have hv := hc.shut.calm h
    refine ⟨Steps.trans hseals (h.moves hc.shut.wf hc.shut.base hc.shut.last).seals, ⟨items, hv⟩,
      fun _ => ⟨hv, ?_, fun hpend => ?_⟩⟩
    · exact (congrArg Method.handlers h.core : v.2.core.handlers = _)
    · obtain ⟨x, hx, hxpend⟩ := he.found (h.hasPending.symm.trans hpend)
      refine ⟨x, hx, ?_⟩
      rwa [isPending_congr fun l hl => h.positions_eq
        (he.labels_of_item (mem_of_mem_placed hx) hl).2.1]
  split at e
  next hframes =>
    obtain ⟨hseals', hv⟩ := closes_computeFrames hc.shut e
    exact ⟨Steps.trans hseals hseals', hv, fun h => absurd hframes h⟩
  next =>
    have hidle : Idle fun m : Method =>
        { m with maxStack := if m.maxStack < stack then stack else m.maxStack } :=
      ⟨fun _ => rfl, fun _ => rfl, fun _ => rfl⟩
    exact hcalm e.keeps
  next => exact hcalm e.keeps

theorem ends_takeAll_append {es fs : List (CodeEvent LabelId)} :
    Ends (takeAll (es ++ fs)) u () v ↔ ∃ w, Ends (takeAll es) u () w ∧
    Ends (takeAll fs) w () v := by
  induction es generalizing u with
  | nil =>
    constructor
    · exact fun h => ⟨u, ends_pure.2 ⟨rfl, rfl⟩, h⟩
    · rintro ⟨w, h, h'⟩
      obtain ⟨-, rfl⟩ := h.pure
      exact h'
  | cons e es ih =>
    constructor
    · intro h
      obtain ⟨_, w, h, h'⟩ := h.bind
      obtain ⟨w', h', h''⟩ := ih.1 h'
      exact ⟨w', ends_bind.2 ⟨(), w, h, h'⟩, h''⟩
    · rintro ⟨w, h, h'⟩
      obtain ⟨_, w', h, h''⟩ := h.bind
      exact ends_bind.2 ⟨(), w', h, ih.2 ⟨w, h'', h'⟩⟩

end MethodM

namespace CodeEvent

theorem Traced.skip_le {p : Pool} {r : Positions} {o : Nat} {es : List (CodeEvent LabelId)}
    {items : List Item} (h : Traced p r o es items) {x : Nat × Item} (hx : x ∈ placed o items)
    {op : Nat} (hop : x.2 = .skip op) :
    x.1 + 8 ∈ (placed o items).map Prod.fst ++ [stop o items] := by
  induction h with
  | nil => cases hx
  | @cons o e es new items here rest ih =>
    rw [placed_append] at hx
    rw [placed_append, stop_append, map_append, append_assoc]
    rcases mem_append.1 hx with hx | hx
    · cases here with
      | instruction h =>
        cases h with
        | inverted =>
          rcases mem_cons.1 hx with rfl | hx
          · exact mem_append_right _ (start_mem_placed _ items)
          · obtain rfl := mem_singleton.1 hx
            cases hop
        | _ =>
          obtain rfl := mem_singleton.1 hx
          cases hop
      | _ => cases hx
    · exact mem_append_right _ (ih hx)

theorem Traced.skips {p : Pool} {r : Positions} {es : List (CodeEvent LabelId)} {items : List Item}
    (h : Traced p r 0 es items) : Method.Skips items :=
  fun _ hx _ hop => h.skip_le hx hop

end CodeEvent

namespace Method

variable {own : LabelId → Prop} {items : List Item} {es : List (CodeEvent LabelId)} {u v w : State}

/-- A method without rows in its tables. -/
structure Blank (m : Method) : Prop where
  handlers : m.handlers = #[]
  lines : m.lineRows = #[]
  locals : m.localRows = #[]
  types : m.localTypeRows = #[]

theorem Takes.rows (h : Takes own es u v) (hu : u.2.Blank)
    (hown : ∀ e ∈ es, ∀ l ∈ e.targets, own l) (he : Emitted own items v) : Rows own items v := by
  have hbound : ∀ l o, own l → v.1.2.positions l = some o → o ∈ bounds items := by
    intro l o hl ho
    have hb := he.bounded l hl
    rwa [(Session.positions_eq_some.1 ho).2] at hb
  refine ⟨fun row hrow => ?_, fun row hrow => ?_, fun row hrow => ?_, fun row hrow => ?_⟩
  · obtain ⟨rows, heq, hrows⟩ := h.handlers
    rw [hu.handlers, nil_append] at heq
    obtain ⟨e, he, hr⟩ := exists_of_forall₂ hrows (heq ▸ Array.mem_toList_iff.2 hrow)
    have htargets := hown e (mem_of_mem_filter he)
    cases e with
    | tryCatch start stop handler caught =>
      obtain ⟨hs, ht, hh, hc⟩ := hr
      refine ⟨?_, ?_, ?_, caught, hc⟩
      · exact hs ▸ htargets start (by simp [targets])
      · exact ht ▸ htargets stop (by simp [targets])
      · exact hh ▸ htargets handler (by simp [targets])
    | _ => exact hr.elim
  · obtain ⟨rows, heq, hrows⟩ := h.lines
    rw [hu.lines, nil_append] at heq
    obtain ⟨e, he, hr⟩ := exists_of_forall₂ hrows (heq ▸ Array.mem_toList_iff.2 hrow)
    have htargets := hown e (mem_of_mem_filter he)
    cases e with
    | line number start =>
      exact hbound start _ (htargets start (by simp [targets])) hr.1
    | _ => exact hr.elim
  · obtain ⟨rows, heq, -, hrows⟩ := h.locals
    rw [hu.locals, nil_append] at heq
    obtain ⟨x, hx, rfl⟩ := mem_map.1 (heq ▸ Array.mem_toList_iff.2 hrow)
    obtain ⟨e, he, hr, -⟩ := exists_of_forall₂ hrows hx
    have htargets := hown e (mem_of_mem_filter he)
    cases e with
    | localVariable name desc signature start stop slot =>
      obtain ⟨hs, ⟨t, ht, hlen⟩, hname, hdesc, -⟩ := hr
      exact ⟨hbound start _ (htargets start (by simp [targets])) hs,
        ⟨t, hbound stop _ (htargets stop (by simp [targets])) ht, hlen⟩,
        ⟨name, hname⟩, desc, hdesc⟩
    | _ => exact hr.elim
  · obtain ⟨rows, -, heq, hrows⟩ := h.locals
    rw [hu.types, nil_append] at heq
    obtain ⟨x, hx, desc, hdesc, rfl⟩ := LocalRow.mem_typeRows.1 (heq ▸ Array.mem_toList_iff.2 hrow)
    obtain ⟨e, -, -, hr⟩ := exists_of_forall₂ hrows hx
    cases e with
    | localVariable name desc signature start stop slot =>
      rcases hr with ⟨-, hnone⟩ | ⟨hne, i, hi, hhas⟩
      · cases hdesc.symm.trans hnone
      · obtain rfl := Option.some.inj (hdesc.symm.trans hi)
        exact ⟨signature, hne, hhas⟩
    | _ => exact hr.elim

/-- What all events of the code make of a method without code. -/
structure Assembles (own : LabelId → Prop) (es : List (CodeEvent LabelId)) (u v : State) :
    Prop where
  extends_ : u.1.1.Extends v.1.1
  size : u.1.2.labels.size ≤ v.1.2.labels.size
  others : ∀ l, ¬ own l → v.1.2.spot l = u.1.2.spot l
  apart : ∀ l n, ¬ own l → v.1.2.next l = some n → u.1.2.next l = some n
  bare : { v.2.bare with hasMaxs := true } = { u.2.bare with hasMaxs := true }
  closed : ∃ items, Closed own items v
  locals : ∃ rows : List (LocalRow × Option Nat), v.2.localRows.toList = rows.map Prod.fst ∧
    v.2.localTypeRows.toList = LocalRow.typeRows rows ∧
    Forall₂ (CodeEvent.NamedRow v.1.1 v.1.2.positions) (es.filter isVariable) rows
  traced : u.2.compute ≠ .frames → ∃ items, Closed own items v ∧
    CodeEvent.Traced v.1.1 v.1.2.positions 0 es items ∧
    Forall₂ (CodeEvent.RangeRow v.1.1) (es.filter isRange) v.2.handlers.toList ∧
    Forall₂ (CodeEvent.LineOf v.1.2.positions) (es.filter isLine)
      v.2.lineRows.toList ∧
    (v.2.hasPending → ∃ x ∈ placed 0 items, x.2.isPending v.1.2.positions x.1)

theorem Seals.bare (h : Seals own u v) :
    { v.2.bare with hasMaxs := true } = { u.2.bare with hasMaxs := true } :=
  (congrArg Method.bare h.outline :
    ({ v.2.outline with handlers := #[], hasMaxs := true } : Method).bare = _)

theorem Seals.lines (h : Seals own u v) : v.2.lineRows = u.2.lineRows :=
  (congrArg Method.lineRows h.outline :
    ({ v.2.outline with handlers := #[], hasMaxs := true } : Method).lineRows = _)

theorem Seals.locals (h : Seals own u v) : v.2.localRows = u.2.localRows :=
  (congrArg Method.localRows h.outline :
    ({ v.2.outline with handlers := #[], hasMaxs := true } : Method).localRows = _)

theorem Seals.types (h : Seals own u v) : v.2.localTypeRows = u.2.localTypeRows :=
  (congrArg Method.localTypeRows h.outline :
    ({ v.2.outline with handlers := #[], hasMaxs := true } : Method).localTypeRows = _)

end Method

namespace MethodM

open Method

variable {own : LabelId → Prop} {es : List (CodeEvent LabelId)} {u v : State}

theorem assembles_takeAll {stack locals : Int} (he : Emitted own [] u) (hu : u.2.Blank)
    (hreg : ∀ e ∈ es, e.Regular) (hown : ∀ e ∈ es, ∀ l ∈ e.targets, own l)
    (hmaxs : ∀ e ∈ es, ∀ stack locals, e ≠ .maxs stack locals) (hfail : v.1.1.failure = none)
    (hrun : Ends (takeAll (es ++ [.maxs stack locals])) u () v) : Assembles own es u v := by
  obtain ⟨w, h, hlast⟩ := ends_takeAll_append.1 hrun
  have h' : Ends (maxs stack locals) w () v := by
    obtain ⟨_, v', h', e⟩ := hlast.bind
    obtain ⟨-, rfl⟩ := e.pure
    exact h'
  have hw : w.1.1.failure = none := by
    by_contra hw
    rw [ends_takeAll_failed hw hlast] at hw
    exact hw hfail
  obtain ⟨htakes, items, hemitted, htraced⟩ := takes_takeAll he hreg hown hmaxs hw h
  rw [nil_append] at hemitted
  obtain ⟨hseals, hclosed, hsame⟩ := closes_maxs hemitted (htakes.rows hu hown hemitted)
    htraced.skips hfail h'
  have hcompute : w.2.compute = u.2.compute :=
    (congrArg Method.compute htakes.bare : w.2.bare.compute = u.2.bare.compute)
  refine ⟨htakes.extends_.trans hseals.extends_, Nat.le_trans htakes.size hseals.size,
    fun l hl => (hseals.others l hl).trans (htakes.others l hl),
    fun l n hl hn => htakes.apart l n hl (hseals.apart l n hl hn), ?_, hclosed, ?_,
    fun hframes => ?_⟩
  · rw [hseals.bare, htakes.bare]
  · obtain ⟨rows, hlocals, htypes, hrows⟩ := htakes.locals
    rw [hu.locals, nil_append] at hlocals
    rw [hu.types, nil_append] at htypes
    exact ⟨rows, hseals.locals ▸ hlocals, hseals.types ▸ htypes,
      hrows.imp fun _ _ hr => hr.mono hseals.extends_ hseals.stays⟩
  · obtain ⟨hc, hhandlers, hfound⟩ := hsame (hcompute ▸ hframes)
    obtain ⟨hs, hhs, hranges⟩ := htakes.handlers
    obtain ⟨ls, hls, hlines⟩ := htakes.lines
    rw [hu.handlers, nil_append] at hhs
    rw [hu.lines, nil_append] at hls
    refine ⟨items, hc, htraced.mono hseals.extends_ hseals.stays, ?_, ?_, hfound⟩
    · rw [hhandlers, hhs]
      exact hranges.imp fun _ _ hr => hr.mono hseals.extends_
    · rw [hseals.lines, hls]
      exact hlines.imp fun _ _ hr => hr.mono hseals.stays

end MethodM

end ClassAssembler
